import ProofDesk.Proofs.Edit.Enclosure

/-!
This module contains what taking out the generated lines of a backward step leaves: all labels and
citations are back to what they were before these lines were put in.
-/

namespace ProofDesk.Derivation

section Generated

theorem filter_range_eq_range' {α : Type} {p : α → Bool} {before new after : List α}
    (hnew : ∀ x ∈ new, p x = true) (hold : ∀ x ∈ before ++ after, p x = false) :
    (List.range (before ++ new ++ after).length).filter
        (fun i => (before ++ new ++ after)[i]?.any p)
      =
    List.range' before.length new.length := by
  have hsplit : List.range (before ++ new ++ after).length
      = List.range' 0 before.length ++ List.range' before.length new.length
        ++ List.range' (before.length + new.length) after.length := by
    rw [List.range_eq_range', List.length_append, List.length_append, ← List.range'_append_1,
      ← List.range'_append_1, Nat.zero_add, Nat.zero_add]
  rw [hsplit, List.filter_append, List.filter_append]
  have hbefore : (List.range' 0 before.length).filter
      (fun i => (before ++ new ++ after)[i]?.any p) = [] := by
    rw [List.filter_eq_nil_iff]
    intro i hi
    have hi : i < before.length := by simpa using hi
    rw [List.append_assoc, List.getElem?_append_left hi, List.getElem?_eq_getElem hi]
    simpa using hold _ (List.mem_append_left _ (List.getElem_mem hi))
  have hafter : (List.range' (before.length + new.length) after.length).filter
      (fun i => (before ++ new ++ after)[i]?.any p) = [] := by
    rw [List.filter_eq_nil_iff]
    intro i hi
    obtain ⟨hle, hlt⟩ := List.mem_range'_1.mp hi
    rw [List.getElem?_append_right (by simpa using hle),
      List.getElem?_eq_getElem (by simp; omega)]
    simpa using hold _ (List.mem_append_right _ (List.getElem_mem _))
  have hmiddle : (List.range' before.length new.length).filter
      (fun i => (before ++ new ++ after)[i]?.any p) = List.range' before.length new.length := by
    rw [List.filter_eq_self]
    intro i hi
    obtain ⟨hle, hlt⟩ := List.mem_range'_1.mp hi
    rw [List.append_assoc, List.getElem?_append_right hle,
      List.getElem?_append_left (by omega), List.getElem?_eq_getElem (by omega)]
    simpa using hnew _ (List.getElem_mem _)
  rw [hbefore, hafter, hmiddle, List.nil_append, List.append_nil]

variable {before new after : List Row} {root : Stamp} {bound : Nat}
  (hroot : root.number < bound)
  (hnew : ∀ r ∈ new, r.line.source = some root ∧ bound ≤ r.line.stamp.number)
  (hold : ∀ r ∈ before ++ after, ∀ s, r.line.source = some s →
    s.number < bound ∧ (s = root → r.line.stamp = root))
include hroot hnew hold

theorem generatedFrom_eq_range' {stamps : List Stamp} (hmem : root ∈ stamps)
    (hstamps : ∀ s ∈ stamps, s = root ∨ bound ≤ s.number) :
    generatedFrom (before ++ new ++ after) stamps = List.range' before.length new.length := by
  apply filter_range_eq_range'
  . intro r hr
    obtain ⟨hsource, hle⟩ := hnew r hr
    have hne : root ≠ r.line.stamp := by
      rintro rfl
      omega
    simp [hsource, hmem, hne]
  . intro r hr
    cases hsource : r.line.source with
    | none => rfl
    | some s =>
      obtain ⟨hlt, hsame⟩ := hold r hr s hsource
      rw [Option.any_some, Bool.and_eq_false_imp]
      intro hs
      rcases hstamps s (by simpa using hs) with rfl | hle
      . simp [hsame rfl]
      . omega

theorem reachedWithin_succ_eq_range' (n : Nat) :
    reachedWithin (before ++ new ++ after) root (n + 1)
      =
    List.range' before.length new.length := by
  induction n with
  | zero =>
    apply generatedFrom_eq_range' hroot hnew hold List.mem_cons_self
    simp [reachedWithin]
  | succ n ih =>
    rw [reachedWithin, ih]
    apply generatedFrom_eq_range' hroot hnew hold List.mem_cons_self
    intro s hs
    rcases List.mem_cons.mp hs with rfl | hs
    . exact .inl rfl
    . obtain ⟨i, hi, hs⟩ := List.mem_filterMap.mp hs
      obtain ⟨hle, hlt⟩ := List.mem_range'_1.mp hi
      rw [List.append_assoc, List.getElem?_append_right hle,
        List.getElem?_append_left (by omega)] at hs
      obtain ⟨r, hr, rfl⟩ := Option.map_eq_some_iff.mp hs
      exact .inr (hnew r (List.mem_of_getElem? hr)).2

theorem generated_eq_range' :
    generated (before ++ new ++ after) root = List.range' before.length new.length := by
  unfold generated
  cases hlen : (before ++ new ++ after).length with
  | zero =>
    obtain ⟨rfl, rfl, rfl⟩ := by simpa using hlen
    rfl
  | succ n => exact reachedWithin_succ_eq_range' hroot hnew hold n

end Generated

theorem removeAround_concat {i j : Nat} (h : j < i) (rows : List Row) (doomed : List Nat) :
    removeAround rows i (doomed ++ [j]) = removeAround (removeRow rows j) (i - 1) doomed := by
  rw [removeAround, List.foldr_append, List.foldr_cons, List.foldr_nil]
  dsimp only
  rw [if_neg (by omega), if_pos h]
  rfl

theorem exists_removeAround_range' {P : Nat → List Row → Prop} {b k : Nat}
    (hstep : ∀ n < k, ∀ rows, P (n + 1) rows → P n (removeRow rows (b + n))) {rows : List Row}
    (h : P k rows) :
    ∃ rows', removeAround rows (b + k) (List.range' b k) = (rows', b) ∧ P 0 rows' := by
  -- Taking out `k` rows from index `b` on goes from the last one to the first, so it is enough to
  -- say what taking out the last one of them leaves.
  induction k generalizing rows with
  | zero => exact ⟨rows, rfl, h⟩
  | succ k ih =>
    rw [List.range'_1_concat, removeAround_concat (by omega)]
    exact ih (fun n hn => hstep n (by omega)) (hstep k (Nat.lt_succ_self k) rows h)

section Supplied

structure Spacious (row : Row) : Prop where
  label : ∀ n ∈ row.label.parts, n + 2 < Label.maxPart
  cited : ∀ l, some l ∈ row.line.arguments → ∀ n ∈ l.parts, n + 2 < Label.maxPart

theorem Backed.spacious {rows : List Row} (h : Backed rows) (hroomy : Roomy rows) {row : Row}
    (hrow : row ∈ rows) : Spacious row := by
  refine ⟨hroomy row hrow, ?_⟩
  intro l hl
  obtain ⟨r, hr, rfl, -⟩ := h row hrow l hl
  exact hroomy r hr

theorem shift_add_of_lt {l : Label} (h : ∀ n ∈ l.parts, n + 2 < Label.maxPart) {k : Nat}
    (hk : k ≤ 2) (base : Label) : l.shift base k = Label.moveFrom (· + k) base l := by
  apply Label.shift_of_le
  apply Label.forall_parts_moveFrom
  intro m hm
  have := h m hm
  omega

theorem shift_pred_of_lt {l : Label} (h : ∀ n ∈ l.parts, n + 2 < Label.maxPart) {k : Nat}
    (hk : k ≤ 2) (base pos : Label) :
    (Label.moveFrom (· + k) base l).shift pos (-1)
      =
    Label.moveFrom (· - 1) pos (Label.moveFrom (· + k) base l) := by
  apply Label.shift_neg_one
  apply Label.forall_parts_moveFrom
  intro m hm
  have := h m hm
  omega

theorem Spacious.makeRoom_eq {row : Row} (h : Spacious row) {k : Nat} (hk : k ≤ 2)
    (base : Label) : makeRoom base k row = relabel (Label.moveFrom (· + k) base) row := by
  unfold makeRoom
  split
  . rw [shift_eq_relabel]
    exact relabel_congr (shift_add_of_lt h.label hk base)
      fun l hl => shift_add_of_lt (h.cited l hl) hk base
  . have : k = 0 := by omega
    subst this
    exact (relabel_eq_self (Label.moveFrom_add_zero ..) fun l _ => Label.moveFrom_add_zero ..).symm

theorem relabel_relabel (f g : Label → Label) (row : Row) :
    relabel f (relabel g row) = relabel (f ∘ g) row := by
  simp [relabel, Function.comp_def]

theorem Spacious.closeUp_relabel {row : Row} (h : Spacious row) {base : Label}
    (hbase : base.parts ≠ []) {k : Nat} (hk : k < 2) :
    closeUp (base.addLast k) (relabel (Label.moveFrom (· + (k + 1)) base) row)
      =
    relabel (Label.moveFrom (· + k) base) row := by
  have hcited : some (base.addLast k)
      ∉ (relabel (Label.moveFrom (· + (k + 1)) base) row).line.arguments := by
    intro hmem
    obtain ⟨l, -, heq⟩ := mem_arguments_relabel hmem
    exact Label.moveFrom_add_ne_addLast hbase l (Nat.lt_succ_self k) heq
  have hmove : ∀ l : Label, (∀ n ∈ l.parts, n + 2 < Label.maxPart) →
      (Label.moveFrom (· + (k + 1)) base l).shift (base.addLast k) (-1)
        = Label.moveFrom (· + k) base l := by
    intro l hl
    rw [shift_pred_of_lt hl hk, Label.moveFrom_pred_moveFrom_add]
  rw [closeUp, forget_eq_self hcited, shift_eq_relabel, relabel_relabel]
  exact relabel_congr (hmove _ h.label) fun l hl => hmove l (h.cited l hl)

structure Inserted (base : Label) (stamp source : Stamp) (new : List Row) : Prop where
  length_le : new.length ≤ 2
  label : ∀ (t : Nat) (r : Row), new[t]? = some r → r.label = base.addLast t
  arguments : ∀ r ∈ new, r.line.arguments = []
  source : ∀ r ∈ new, r.line.source = some source
  stamp_le : ∀ r ∈ new, stamp.number ≤ r.line.stamp.number

theorem NewGoals.inserted {base : Label} {stamp source : Stamp} {goals : List Formula}
    {new : List Row} (h : NewGoals base stamp source goals new) (hlen : new.length ≤ 2)
    (hlabel : ∀ (t : Nat) (r : Row), new[t]? = some r → r.label = base.addLast t) :
    Inserted base stamp source new := by
  have hline : ∀ r ∈ new, ∃ goal t, r.line = goalLine goal ⟨stamp.number + t⟩ source := by
    intro r hr
    obtain ⟨t, ht⟩ := List.getElem?_of_mem hr
    obtain ⟨goal, -, rfl⟩ := h t r ht
    exact ⟨goal, t, rfl⟩
  refine ⟨hlen, hlabel, ?_, ?_, ?_⟩
  all_goals
    intro r hr
    obtain ⟨goal, t, hline⟩ := hline r hr
    rw [hline]
  . rfl
  . rfl
  . exact Nat.le_add_right ..

variable {before new after : List Row} {base : Label} (hbase : base.parts ≠ [])
  (hparts : ∀ n ∈ base.parts, n + 2 < Label.maxPart)
  (hafter : ∀ r ∈ after, Spacious r)
include hbase hparts hafter

theorem removeRow_last_newGoal {n : Nat} {last : Row} (hlen : new.length = n) (hn : n < 2)
    (hlast : last.label = base.addLast n)
    (hbefore : ∀ r ∈ before, some (base.addLast n) ∉ r.line.arguments)
    (hnew : ∀ r ∈ new, r.line.arguments = []) (line : Line) :
    ∃ arguments, removeRow
        (before ++ new ++ [last] ++ ⟨base.addLast (n + 1), line⟩
          :: after.map (relabel (Label.moveFrom (· + (n + 1)) base)))
        (before.length + n)
      = before ++ new ++ ⟨base.addLast n, { line with arguments }⟩
        :: after.map (relabel (Label.moveFrom (· + n) base)) := by
  subst hlen
  have hindex : before.length + new.length = (before ++ new).length := by rw [List.length_append]
  have hkept : (before ++ new).map (Row.forget last.label) = before ++ new := by
    apply map_eq_self
    intro r hr
    apply forget_eq_self
    rcases List.mem_append.mp hr with hr | hr
    . exact hlast ▸ hbefore r hr
    . simp [hnew r hr]
  have hmoved : (after.map (relabel (Label.moveFrom (· + (new.length + 1)) base))).map
        (closeUp last.label)
      = after.map (relabel (Label.moveFrom (· + new.length) base)) := by
    rw [List.map_map, hlast]
    apply List.map_congr_left
    intro r hr
    exact (hafter r hr).closeUp_relabel hbase hn
  have hlabel : (base.addLast (new.length + 1)).shift last.label (-1)
      = base.addLast new.length := by
    rw [hlast, ← Label.moveFrom_add_self, shift_pred_of_lt hparts hn,
      Label.moveFrom_pred_moveFrom_add, Label.moveFrom_add_self]
  refine ⟨(closeUp last.label ⟨base.addLast (new.length + 1), line⟩).line.arguments, ?_⟩
  rw [hindex, List.append_assoc, List.singleton_append, removeRow_split, hkept, List.map_cons,
    hmoved, ← hlabel]
  rfl

theorem Inserted.removeAround_eq {stamp source : Stamp} (hnew : Inserted base stamp source new)
    (hbefore : ∀ r ∈ before, ∀ t < new.length, some (base.addLast t) ∉ r.line.arguments)
    (line : Line) :
    ∃ arguments, removeAround
        (before ++ new ++ ⟨base.addLast new.length, line⟩
          :: after.map (relabel (Label.moveFrom (· + new.length) base)))
        (before.length + new.length) (List.range' before.length new.length)
      = (before ++ ⟨base, { line with arguments }⟩ :: after, before.length) := by
  let P (n : Nat) (rows : List Row) : Prop := ∃ arguments, rows
    = before ++ new.take n ++ ⟨base.addLast n, { line with arguments }⟩
      :: after.map (relabel (Label.moveFrom (· + n) base))
  have hstep : ∀ n < new.length, ∀ rows, P (n + 1) rows
      → P n (removeRow rows (before.length + n)) := by
    rintro n hn rows ⟨arguments, rfl⟩
    have hlabel := hnew.label n new[n] (List.getElem?_eq_getElem hn)
    have hlen := hnew.length_le
    obtain ⟨arguments', hremove⟩ := removeRow_last_newGoal hbase hparts hafter
      (List.length_take_of_le (Nat.le_of_lt hn)) (by omega) hlabel (fun r hr => hbefore r hr n hn)
      (fun r hr => hnew.arguments r (List.mem_of_mem_take hr)) { line with arguments }
    refine ⟨arguments', ?_⟩
    rw [← hremove, List.take_succ_eq_append_getElem hn, ← List.append_assoc]
  have hfull : P new.length (before ++ new ++ ⟨base.addLast new.length, line⟩
      :: after.map (relabel (Label.moveFrom (· + new.length) base))) :=
    ⟨line.arguments, by rw [List.take_length]⟩
  obtain ⟨rows, hremove, arguments, rfl⟩ := exists_removeAround_range' hstep hfull
  refine ⟨arguments, ?_⟩
  have hsame : after.map (relabel (Label.moveFrom (· + 0) base)) = after := by
    apply map_eq_self
    intro r _
    exact relabel_eq_self (Label.moveFrom_add_zero ..) fun l _ => Label.moveFrom_add_zero ..
  rw [hremove, List.take_zero, List.append_nil, Label.addLast_zero, hsame]

end Supplied

end ProofDesk.Derivation
