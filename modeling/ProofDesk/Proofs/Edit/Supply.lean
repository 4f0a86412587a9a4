import Mathlib.Data.List.Forall2
import Mathlib.Data.List.Induction
import ProofDesk.Derivation.Update
import ProofDesk.Proofs.Rows

/-!
This module contains what is put in for the goals of a backward line: each goal is held by a line
that is visible there, or by one of the new lines directly before it.
-/

namespace ProofDesk.Derivation

def Supplies (before new : List Row) (base : Label) (goal : Formula) (arg : Option Label) : Prop :=
  ∃ row, arg = some row.label ∧ row.line.formula = goal
    ∧ (row ∈ before ∧ row.label.visibleAt base ∨ row ∈ new)

def NewGoals (base : Label) (stamp source : Stamp) (goals : List Formula) (new : List Row) :
    Prop :=
  ∀ (t : Nat) (row : Row), new[t]? = some row →
    ∃ goal ∈ goals, row = ⟨base.moveLast t, goalLine goal ⟨stamp.number + t⟩ source⟩

structure Supplied (d : Derivation) (before after : List Row) (base : Label) (source : Stamp)
    (goals : List Formula) (new : List Row) (s : Supply) : Prop where
  start : s.derivation.start = d.start
  goal : s.derivation.goal = d.goal
  rows : s.derivation.rows = before ++ (new ++ after)
  stamp : s.derivation.stamp = ⟨d.stamp.number + new.length⟩
  inserted : s.inserted = new.length
  length_le : new.length ≤ goals.length
  newGoals : NewGoals base d.stamp source goals new
  arguments : List.Forall₂ (Supplies before new base) goals s.arguments

variable {d : Derivation} {before after : List Row} {base : Label} {source : Stamp}
  {goals : List Formula} {new : List Row}

theorem Supplies.mono {new' : List Row} (hsub : new ⊆ new') {goal : Formula} {arg : Option Label}
    (h : Supplies before new base goal arg) : Supplies before new' base goal arg := by
  obtain ⟨row, harg, hgoal, hrow⟩ := h
  exact ⟨row, harg, hgoal, hrow.imp_right (hsub ·)⟩

theorem NewGoals.mono {stamp : Stamp} (h : NewGoals base stamp source goals new)
    (goal : Formula) : NewGoals base stamp source (goals ++ [goal]) new := by
  intro t row hrow
  obtain ⟨g, hg, heq⟩ := h t row hrow
  exact ⟨g, List.mem_append_left _ hg, heq⟩

theorem NewGoals.append {stamp : Stamp} (h : NewGoals base stamp source goals new)
    (goal : Formula) :
    NewGoals base stamp source (goals ++ [goal])
      (new ++ [⟨base.moveLast new.length,
        goalLine goal ⟨stamp.number + new.length⟩ source⟩]) := by
  intro t row hrow
  rcases Nat.lt_trichotomy t new.length with ht | ht | ht
  . rw [List.getElem?_append_left ht] at hrow
    exact h.mono goal t row hrow
  . subst ht
    simp only [List.getElem?_concat_length, Option.some.injEq] at hrow
    exact ⟨goal, by simp, hrow.symm⟩
  . rw [List.getElem?_eq_none (by simp; omega)] at hrow
    simp at hrow

section Step

variable {s : Supply} (h : Supplied d before after base source goals new s)
include h

theorem Supplied.of_supplier {goal : Formula} {label : Label}
    (hlabel : supplier? s.derivation.rows before.length s.inserted base goal = some label) :
    Supplies before new base goal (some label) := by
  unfold supplier? at hlabel
  dsimp only at hlabel
  rw [h.rows, h.inserted, List.take_left, List.drop_left, List.take_left] at hlabel
  obtain ⟨row, hrow, rfl⟩ := Option.map_eq_some_iff.mp hlabel
  refine ⟨row, rfl, ?_⟩
  simp only [Option.orElse_eq_orElse, Option.orElse_eq_or, Option.or_eq_some_iff] at hrow
  rcases hrow with hfind | ⟨-, hfind⟩
  . have hp := List.find?_some hfind
    simp only [Bool.and_eq_true, beq_iff_eq] at hp
    exact ⟨hp.1, .inl ⟨List.mem_of_find?_eq_some hfind, hp.2⟩⟩
  . have hp := List.find?_some hfind
    simp only [beq_iff_eq] at hp
    exact ⟨hp, .inr (List.mem_of_find?_eq_some hfind)⟩

theorem Supplied.next (goal : Formula) :
    ∃ new', Supplied d before after base source (goals ++ [goal]) new'
      (Supply.next before.length base source s goal) := by
  -- One more goal: it is cited where it is found, or a row is put in for it.
  unfold Supply.next
  dsimp only
  split
  . next label hlabel =>
    refine ⟨new, h.start, h.goal, h.rows, h.stamp, h.inserted, ?_, h.newGoals.mono goal, ?_⟩
    . rw [List.length_append]
      exact Nat.le_add_right_of_le h.length_le
    . exact List.rel_append h.arguments (.cons (h.of_supplier hlabel) .nil)
  . have hrow : (⟨base.moveLast s.inserted, goalLine goal s.derivation.stamp source⟩ : Row)
        = ⟨base.moveLast new.length, goalLine goal ⟨d.stamp.number + new.length⟩ source⟩ := by
      rw [h.inserted, h.stamp]
    refine ⟨_, h.start, h.goal, ?_, ?_, ?_, ?_, h.newGoals.append goal, ?_⟩
    . have hlen : before.length + s.inserted = (before ++ new).length := by
        rw [h.inserted, List.length_append]
      simp only [insertRow, hrow]
      rw [h.rows, ← List.append_assoc, hlen, insertIdx_split]
      simp
    . simp [Stamp.next, insertRow, h.stamp, Nat.add_assoc]
    . simp [h.inserted]
    . simpa using h.length_le
    . refine List.rel_append ?_ (.cons ?_ .nil)
      . exact h.arguments.imp fun _ _ hs => hs.mono (List.subset_append_left ..)
      . refine ⟨⟨base.moveLast s.inserted, goalLine goal s.derivation.stamp source⟩, rfl, rfl,
          .inr ?_⟩
        rw [hrow]
        simp

end Step

theorem exists_supplied (hrows : d.rows = before ++ after) (base : Label) (source : Stamp)
    (goals : List Formula) :
    ∃ new, Supplied d before after base source goals new
      (goals.foldl (Supply.next before.length base source) ⟨d, 0, []⟩) := by
  induction goals using List.reverseRecOn with
  | nil =>
    refine ⟨[], rfl, rfl, hrows, rfl, rfl, Nat.le_refl _, ?_, .nil⟩
    intro t row hrow
    simp at hrow
  | append_singleton goals goal ih =>
    obtain ⟨new, ih⟩ := ih
    rw [List.foldl_append]
    exact ih.next goal

def makeRoom (base : Label) (n : Nat) (row : Row) : Row :=
  if 0 < n then row.shift base n else row

theorem makeRoom_eq_shift {n : Nat} (h : 0 < n) : makeRoom base n = Row.shift base n := by
  funext row
  simp [makeRoom, h]

theorem makeRoom_zero : makeRoom base 0 = id := by
  rfl

theorem shiftFrom_split (n : Nat) :
    (if 0 < n then shiftFrom base before.length n (before ++ after) else before ++ after)
      =
    before ++ after.map (makeRoom base n) := by
  by_cases h : 0 < n
  . rw [if_pos h, shiftFrom, List.take_left, List.drop_left, makeRoom_eq_shift h]
  . have : n = 0 := by omega
    rw [if_neg h, this, makeRoom_zero, List.map_id]

section Fill

def holder? (rows : List Row) (base : Label) (goal : Formula) : Option Label :=
  (rows.find? fun row => row.line.formula == goal && row.label.visibleAt base).map Row.label

structure Filling where
  new : List Row
  arguments : List (Option Label)

def Filling.next (held : Formula → Option Label) (base : Label) (stamp source : Stamp)
    (s : Filling) (goal : Formula) : Filling :=
  match held goal <|> (s.new.find? fun row => row.line.formula == goal).map Row.label with
  | some label => { s with arguments := s.arguments ++ [some label] }
  | none =>
    let label := base.moveLast s.new.length
    { new := s.new ++ [⟨label, goalLine goal ⟨stamp.number + s.new.length⟩ source⟩]
      arguments := s.arguments ++ [some label] }

def fill (held : Formula → Option Label) (base : Label) (stamp source : Stamp)
    (goals : List Formula) : Filling :=
  goals.foldl (Filling.next held base stamp source) ⟨[], []⟩

theorem fill_concat (held : Formula → Option Label) (base : Label) (stamp source : Stamp)
    (goals : List Formula) (goal : Formula) :
    fill held base stamp source (goals ++ [goal])
      =
    (fill held base stamp source goals).next held base stamp source goal := by
  rw [fill, List.foldl_append]
  rfl

theorem supplier?_eq (before new after : List Row) (base : Label) (goal : Formula) :
    supplier? (before ++ (new ++ after)) before.length new.length base goal
      =
    (holder? before base goal <|>
      (new.find? fun row => row.line.formula == goal).map Row.label) := by
  unfold supplier? holder?
  rw [List.take_left, List.drop_left, List.take_left]
  cases before.find? _ <;> rfl

theorem foldl_supply_eq (hrows : d.rows = before ++ after) (goals : List Formula) :
    goals.foldl (Supply.next before.length base source) ⟨d, 0, []⟩
      =
    ⟨{ d with
        rows := before ++ ((fill (holder? before base) base d.stamp source goals).new ++ after)
        stamp := ⟨d.stamp.number
          + (fill (holder? before base) base d.stamp source goals).new.length⟩ },
      (fill (holder? before base) base d.stamp source goals).new.length,
      (fill (holder? before base) base d.stamp source goals).arguments⟩ := by
  induction goals using List.reverseRecOn with
  | nil =>
    rw [List.foldl_nil, fill, List.foldl_nil]
    simp [← hrows]
  | append_singleton goals goal ih =>
    rw [List.foldl_append, ih, List.foldl_cons, List.foldl_nil, fill_concat]
    generalize fill (holder? before base) base d.stamp source goals = s
    unfold Supply.next Filling.next
    dsimp only
    rw [supplier?_eq]
    generalize (holder? before base goal <|>
      (s.new.find? fun row => row.line.formula == goal).map Row.label) = found
    cases found with
    | some label => rfl
    | none =>
      have hlen : before.length + s.new.length = (before ++ s.new).length := by
        rw [List.length_append]
      simp only [insertRow]
      rw [← List.append_assoc, hlen, insertIdx_split]
      simp [Stamp.next, Nat.add_assoc]

theorem supplyGoals_eq_fill {row : Row} {s : Filling} {goals : List Formula}
    (hrows : d.rows = before ++ row :: after)
    (hs : fill (holder? before base) base d.stamp source goals = s) :
    d.supplyGoals before.length base source goals
      =
    { d with
      rows := before ++ s.new
        ++ ⟨(makeRoom base s.new.length row).label, { row.line with arguments := s.arguments }⟩
          :: after.map (makeRoom base s.new.length)
      stamp := ⟨d.stamp.number + s.new.length⟩ } := by
  unfold supplyGoals
  rw [foldl_supply_eq hrows, hs]
  dsimp only
  have hlen : before.length + s.new.length = (before ++ s.new).length := by rw [List.length_append]
  rw [← List.append_assoc, hlen, shiftFrom_split, List.map_cons, modify_split]
  have hline : { (makeRoom base s.new.length row).line with arguments := s.arguments }
      = { row.line with arguments := s.arguments } := by
    unfold makeRoom
    split <;> rfl
  rw [hline]

theorem exists_fill_eq (hrows : d.rows = before ++ after) (base : Label) (source : Stamp)
    (goals : List Formula) :
    ∃ new arguments, fill (holder? before base) base d.stamp source goals = ⟨new, arguments⟩
      ∧ new.length ≤ goals.length ∧ NewGoals base d.stamp source goals new
      ∧ List.Forall₂ (Supplies before new base) goals arguments := by
  obtain ⟨new, h⟩ := exists_supplied hrows base source goals
  rw [foldl_supply_eq hrows] at h
  have hnew : (fill (holder? before base) base d.stamp source goals).new = new :=
    List.append_cancel_right (List.append_cancel_left h.rows)
  exact ⟨new, _, by rw [← hnew], h.length_le, h.newGoals, h.arguments⟩

end Fill

theorem exists_supplyGoals_eq {row : Row} (hrows : d.rows = before ++ row :: after) (base : Label)
    (source : Stamp) (goals : List Formula) :
    ∃ new arguments, new.length ≤ goals.length ∧ NewGoals base d.stamp source goals new
      ∧ List.Forall₂ (Supplies before new base) goals arguments
      ∧ d.supplyGoals before.length base source goals
        = { d with
            rows := before ++ new
              ++ ⟨(makeRoom base new.length row).label, { row.line with arguments }⟩
                :: after.map (makeRoom base new.length)
            stamp := ⟨d.stamp.number + new.length⟩ } := by
  obtain ⟨new, arguments, hfill, hlen, hnew, hsupplies⟩ := exists_fill_eq hrows base source goals
  exact ⟨new, arguments, hlen, hnew, hsupplies, supplyGoals_eq_fill hrows hfill⟩

end ProofDesk.Derivation
