import Mathlib.Data.List.Pairwise
import Mathlib.Data.List.Perm.Basic
import ProofDesk.Proofs.Law.Matches

/-!
This module contains what it means to use a law on every outermost match. The outermost matches do
not touch each other, so that they can be replaced one after the other in any order, and what comes
of it is what the law makes of the whole formula.
-/

namespace ProofDesk

namespace Formula

inductive Node where
  | const (value : Bool)
  | var (name : String)
  | neg
  | bin (c : Connective)
  deriving DecidableEq, Repr

def node : Formula → Node
  | const value => .const value
  | var name => .var name
  | neg _ => .neg
  | bin c _ _ => .bin c

def nodeAt? (p : Formula) (pos : Position) : Option Node :=
  (p.at? pos).map node

def replaceEach (p : Formula) (changes : List (Position × Formula)) : Formula :=
  changes.foldl (fun p change => p.replaceAt change.1 change.2) p

def underChild (i : Nat) (change : Position × Formula) : Position × Formula :=
  (i :: change.1, change.2)

def Independent (pos pos' : Position) : Prop :=
  ¬ pos <+: pos' ∧ ¬ pos' <+: pos

theorem independent_cons {i j : Nat} {pos pos' : Position} :
    Independent (i :: pos) (j :: pos') ↔ i ≠ j ∨ Independent pos pos' := by
  unfold Independent
  simp only [List.cons_prefix_cons]
  grind

theorem replaceAt_comm {pos pos' : Position} (h : Independent pos pos') (p new new' : Formula) :
    (p.replaceAt pos new).replaceAt pos' new' = (p.replaceAt pos' new').replaceAt pos new := by
  induction pos generalizing p pos' with
  | nil =>
    unfold Independent at h
    simp at h
  | cons i pos ih =>
    cases pos' with
    | nil =>
      unfold Independent at h
      simp at h
    | cons j pos' =>
      rw [independent_cons] at h
      cases p with
      | const value => simp [replaceAt]
      | var name => simp [replaceAt]
      | neg inner => rcases i with _ | i <;> rcases j with _ | j <;> simp_all [replaceAt]
      | bin c left right =>
        rcases i with _ | _ | i <;> rcases j with _ | _ | j <;> simp_all [replaceAt]

theorem replaceEach_append (p : Formula) (changes changes' : List (Position × Formula)) :
    p.replaceEach (changes ++ changes') = (p.replaceEach changes).replaceEach changes' := by
  unfold replaceEach
  rw [List.foldl_append]

theorem replaceEach_neg (inner : Formula) (changes : List (Position × Formula)) :
    (neg inner).replaceEach (changes.map (underChild 0)) = neg (inner.replaceEach changes) := by
  induction changes generalizing inner with
  | nil => rfl
  | cons change changes ih => exact ih (inner.replaceAt change.1 change.2)

theorem replaceEach_left (c : Connective) (left right : Formula)
    (changes : List (Position × Formula)) :
    (bin c left right).replaceEach (changes.map (underChild 0))
      =
    bin c (left.replaceEach changes) right := by
  induction changes generalizing left with
  | nil => rfl
  | cons change changes ih => exact ih (left.replaceAt change.1 change.2)

theorem replaceEach_right (c : Connective) (left right : Formula)
    (changes : List (Position × Formula)) :
    (bin c left right).replaceEach (changes.map (underChild 1))
      =
    bin c left (right.replaceEach changes) := by
  induction changes generalizing right with
  | nil => rfl
  | cons change changes ih => exact ih (right.replaceAt change.1 change.2)

theorem replaceEach_perm {changes changes' : List (Position × Formula)}
    (hpairwise : changes.Pairwise fun a b => Independent a.1 b.1) (hperm : changes'.Perm changes)
    (p : Formula) : p.replaceEach changes' = p.replaceEach changes := by
  have : Std.Symm fun a b : Position × Formula => Independent a.1 b.1 :=
    ⟨fun _ _ h => ⟨h.2, h.1⟩⟩
  apply hperm.foldl_eq'
  intro a ha b hb p
  by_cases hab : a = b
  . rw [hab]
  . apply replaceAt_comm
    exact hpairwise.forall (hperm.mem_iff.mp ha) (hperm.mem_iff.mp hb) hab

end Formula

namespace Reading

open Formula (Independent underChild)

def IsOutermost (r : Reading) (p : Formula) (pos : Position) : Prop :=
  pos ∈ r.matchPositions p ∧ ∀ above ∈ r.matchPositions p, above <+: pos → above = pos

instance (r : Reading) (p : Formula) : DecidablePred (r.IsOutermost p) :=
  fun pos => inferInstanceAs (Decidable (pos ∈ _ ∧ ∀ above ∈ r.matchPositions p, _))

def outermost (r : Reading) (p : Formula) : List Position :=
  (r.matchPositions p).filter fun pos => r.IsOutermost p pos

def change? (r : Reading) (p : Formula) (pos : Position) : Option (Position × Formula) :=
  ((p.at? pos).bind r.atRoot?).map fun q => (pos, q)

def changes (r : Reading) (p : Formula) : List (Position × Formula) :=
  (r.outermost p).filterMap (r.change? p)

variable {r : Reading} {p q : Formula} {pos : Position}

theorem matchPositions_of_atRoot?_eq_none (h : r.atRoot? p = none) :
    r.matchPositions p = r.positionsBelow p := by
  rw [matchPositions_eq_append, rootPositions, isMatch, h]
  rfl

section Outermost

theorem outermost_of_atRoot?_eq_some (h : r.atRoot? p = some q) : r.outermost p = [[]] := by
  have hpositions : r.matchPositions p = [] :: r.positionsBelow p := by
    rw [matchPositions_eq_append, rootPositions, isMatch, h]
    rfl
  have hbelow : ∀ pos ∈ r.positionsBelow p, pos ≠ [] := by
    have hnodup := nodup_matchPositions r p
    rw [hpositions, List.nodup_cons] at hnodup
    rintro pos hpos rfl
    exact hnodup.1 hpos
  unfold outermost
  rw [hpositions, List.filter_cons_of_pos, List.filter_eq_nil_iff.mpr]
  . intro pos hpos hout
    apply hbelow pos hpos
    rw [decide_eq_true_eq, IsOutermost, hpositions] at hout
    exact (hout.2 [] List.mem_cons_self List.nil_prefix).symm
  . simp [IsOutermost, hpositions]

theorem outermost_neg {inner : Formula} (h : r.atRoot? (.neg inner) = none) :
    r.outermost (.neg inner) = (r.outermost inner).map (0 :: ·) := by
  have hpositions := matchPositions_of_atRoot?_eq_none h
  rw [positionsBelow] at hpositions
  unfold outermost
  rw [hpositions, List.filter_map]
  congr 1
  apply List.filter_congr
  intro pos _
  rw [Function.comp_apply, decide_eq_decide]
  simp [IsOutermost, hpositions]

theorem outermost_bin {c : Connective} {left right : Formula}
    (h : r.atRoot? (.bin c left right) = none) :
    r.outermost (.bin c left right)
      =
    (r.outermost left).map (0 :: ·) ++ (r.outermost right).map (1 :: ·) := by
  have hpositions := matchPositions_of_atRoot?_eq_none h
  rw [positionsBelow] at hpositions
  unfold outermost
  rw [hpositions, List.filter_append, List.filter_map, List.filter_map]
  congr 2
  . apply List.filter_congr
    intro pos _
    rw [Function.comp_apply, decide_eq_decide]
    simp [IsOutermost, hpositions, or_imp, forall_and]
  . apply List.filter_congr
    intro pos _
    rw [Function.comp_apply, decide_eq_decide]
    simp [IsOutermost, hpositions, or_imp, forall_and]

theorem outermost_leaf (h : r.atRoot? p = none) (hneg : ∀ inner, p ≠ .neg inner)
    (hbin : ∀ c left right, p ≠ .bin c left right) : r.outermost p = [] := by
  have hbelow : r.positionsBelow p = [] := by
    cases p with
    | const value => rfl
    | var name => rfl
    | neg inner => exact absurd rfl (hneg inner)
    | bin c left right => exact absurd rfl (hbin c left right)
  unfold outermost
  rw [matchPositions_of_atRoot?_eq_none h, hbelow]
  rfl

end Outermost

section Changes

theorem mem_changes_iff :
    (pos, q) ∈ r.changes p ↔
      r.IsOutermost p pos ∧ ∃ sub, p.at? pos = some sub ∧ r.atRoot? sub = some q := by
  unfold changes outermost change?
  simp only [List.mem_filterMap, List.mem_filter, decide_eq_true_eq, Option.map_eq_some_iff,
    Option.bind_eq_some_iff, Prod.mk.injEq]
  constructor
  . rintro ⟨_, ⟨-, hout⟩, _, hsub, rfl, rfl⟩
    exact ⟨hout, hsub⟩
  . rintro ⟨hout, hsub⟩
    exact ⟨pos, ⟨hout.1, hout⟩, q, hsub, rfl, rfl⟩

theorem changes_of_atRoot?_eq_some (h : r.atRoot? p = some q) : r.changes p = [([], q)] := by
  unfold changes
  rw [outermost_of_atRoot?_eq_some h]
  simp [change?, h]

theorem changes_neg {inner : Formula} (h : r.atRoot? (.neg inner) = none) :
    r.changes (.neg inner) = (r.changes inner).map (underChild 0) := by
  unfold changes
  rw [outermost_neg h, List.filterMap_map, List.map_filterMap]
  congr 1
  funext pos
  simp [change?, underChild, Function.comp_def]

theorem changes_bin {c : Connective} {left right : Formula}
    (h : r.atRoot? (.bin c left right) = none) :
    r.changes (.bin c left right)
      =
    (r.changes left).map (underChild 0) ++ (r.changes right).map (underChild 1) := by
  unfold changes
  rw [outermost_bin h, List.filterMap_append, List.filterMap_map, List.filterMap_map,
    List.map_filterMap, List.map_filterMap]
  congr 2
  . funext pos
    simp [change?, underChild, Function.comp_def]
  . funext pos
    simp [change?, underChild, Function.comp_def]

theorem changes_leaf (h : r.atRoot? p = none) (hneg : ∀ inner, p ≠ .neg inner)
    (hbin : ∀ c left right, p ≠ .bin c left right) : r.changes p = [] := by
  unfold changes
  rw [outermost_leaf h hneg hbin]
  rfl

theorem map_fst_changes (r : Reading) (p : Formula) :
    (r.changes p).map Prod.fst = r.outermost p := by
  fun_induction everywhere r p with
  | case1 p q h =>
    rw [changes_of_atRoot?_eq_some h, outermost_of_atRoot?_eq_some h]
    rfl
  | case2 inner h ih =>
    rw [changes_neg h, outermost_neg h, ← ih, List.map_map, List.map_map]
    rfl
  | case3 c left right h ihl ihr =>
    rw [changes_bin h, outermost_bin h, ← ihl, ← ihr, List.map_append, List.map_map, List.map_map,
      List.map_map, List.map_map]
    rfl
  | case4 p hneg hbin h =>
    rw [changes_leaf h hneg hbin, outermost_leaf h hneg hbin]
    rfl

theorem pairwise_changes (r : Reading) (p : Formula) :
    (r.changes p).Pairwise fun a b => Independent a.1 b.1 := by
  have hunder : ∀ (i : Nat) {changes : List (Position × Formula)},
      (changes.Pairwise fun a b => Independent a.1 b.1) →
      ((changes.map (underChild i)).Pairwise fun a b => Independent a.1 b.1) := by
    intro i changes h
    apply h.map
    intro a b hab
    exact Formula.independent_cons.mpr (.inr hab)
  fun_induction everywhere r p with
  | case1 p q h =>
    rw [changes_of_atRoot?_eq_some h]
    apply List.pairwise_singleton
  | case2 inner h ih =>
    rw [changes_neg h]
    exact hunder 0 ih
  | case3 c left right h ihl ihr =>
    rw [changes_bin h, List.pairwise_append]
    refine ⟨hunder 0 ihl, hunder 1 ihr, ?_⟩
    simp only [List.forall_mem_map]
    intro a _ b _
    exact Formula.independent_cons.mpr (.inl Nat.zero_ne_one)
  | case4 p hneg hbin h =>
    rw [changes_leaf h hneg hbin]
    apply List.Pairwise.nil

end Changes

section Everywhere

theorem replaceEach_changes (r : Reading) (p : Formula) :
    p.replaceEach (r.changes p) = r.everywhere p := by
  fun_induction everywhere r p with
  | case1 p q h =>
    rw [changes_of_atRoot?_eq_some h]
    exact Formula.replaceAt_nil p q
  | case2 inner h ih => rw [changes_neg h, Formula.replaceEach_neg, ih]
  | case3 c left right h ihl ihr =>
    rw [changes_bin h, Formula.replaceEach_append, Formula.replaceEach_left,
      Formula.replaceEach_right, ihl, ihr]
  | case4 p hneg hbin h =>
    rw [changes_leaf h hneg hbin]
    rfl

theorem at?_everywhere (hchange : (pos, q) ∈ r.changes p) :
    (r.everywhere p).at? pos = some q := by
  fun_induction everywhere r p generalizing pos with
  | case1 p q' h =>
    rw [changes_of_atRoot?_eq_some h, List.mem_singleton] at hchange
    cases hchange
    apply Formula.at?_nil
  | case2 inner h ih =>
    rw [changes_neg h, List.mem_map] at hchange
    obtain ⟨change, hmem, heq⟩ := hchange
    cases heq
    exact ih hmem
  | case3 c left right h ihl ihr =>
    rw [changes_bin h, List.mem_append, List.mem_map, List.mem_map] at hchange
    rcases hchange with ⟨change, hmem, heq⟩ | ⟨change, hmem, heq⟩
    . cases heq
      exact ihl hmem
    . cases heq
      exact ihr hmem
  | case4 p hneg hbin h =>
    rw [changes_leaf h hneg hbin] at hchange
    cases hchange

theorem nodeAt?_everywhere (hout : ∀ above ∈ r.outermost p, ¬ above <+: pos) :
    (r.everywhere p).nodeAt? pos = p.nodeAt? pos := by
  unfold Formula.nodeAt?
  fun_induction everywhere r p generalizing pos with
  | case1 p q h =>
    rw [outermost_of_atRoot?_eq_some h] at hout
    exact absurd (List.nil_prefix) (hout [] (List.mem_singleton_self _))
  | case2 inner h ih =>
    rw [outermost_neg h, List.forall_mem_map] at hout
    match pos with
    | [] => rfl
    | 0 :: pos =>
      apply ih
      intro above habove hpre
      exact hout above habove (List.cons_prefix_cons.mpr ⟨rfl, hpre⟩)
    | (_ + 1) :: _ => rfl
  | case3 c left right h ihl ihr =>
    rw [outermost_bin h, List.forall_mem_append, List.forall_mem_map, List.forall_mem_map] at hout
    match pos with
    | [] => rfl
    | 0 :: pos =>
      apply ihl
      intro above habove hpre
      exact hout.1 above habove (List.cons_prefix_cons.mpr ⟨rfl, hpre⟩)
    | 1 :: pos =>
      apply ihr
      intro above habove hpre
      exact hout.2 above habove (List.cons_prefix_cons.mpr ⟨rfl, hpre⟩)
    | (_ + 2) :: _ => rfl
  | case4 p hneg hbin h => rfl

theorem everywhere_eq_self (h : r.matchCount p = 0) : r.everywhere p = p := by
  have hnil : r.matchPositions p = [] := by
    rw [← List.length_eq_zero_iff, length_matchPositions, h]
  rw [← replaceEach_changes, changes, outermost, hnil]
  rfl

end Everywhere

/--
To use a law on every outermost match is to replace them all, in any order: each change stands at
its place, and every other node stays.
-/
theorem everywhere_replaces_outermost (r : Reading) (p : Formula) :
    (∀ pos q, (pos, q) ∈ r.changes p ↔
        r.IsOutermost p pos ∧ ∃ sub, p.at? pos = some sub ∧ r.atRoot? sub = some q)
      ∧ (∀ pos, pos ∈ (r.changes p).map Prod.fst ↔ r.IsOutermost p pos)
      ∧ (r.changes p).Pairwise (fun a b => Independent a.1 b.1)
      ∧ (∀ changes, changes.Perm (r.changes p) → p.replaceEach changes = r.everywhere p)
      ∧ (∀ pos q, (pos, q) ∈ r.changes p → (r.everywhere p).at? pos = some q)
      ∧ (∀ pos, (∀ above, r.IsOutermost p above → ¬ above <+: pos) →
          (r.everywhere p).nodeAt? pos = p.nodeAt? pos)
      ∧ (r.matchCount p = 0 → r.everywhere p = p) := by
  have hmem : ∀ pos, pos ∈ r.outermost p ↔ r.IsOutermost p pos := by
    intro pos
    rw [outermost, List.mem_filter, decide_eq_true_eq]
    exact and_iff_right_of_imp And.left
  refine ⟨fun _ _ => mem_changes_iff, ?_, pairwise_changes r p, ?_, ?_, ?_, everywhere_eq_self⟩
  . intro pos
    rw [map_fst_changes]
    exact hmem pos
  . intro changes hperm
    rw [Formula.replaceEach_perm (pairwise_changes r p) hperm, replaceEach_changes]
  . intro pos q hchange
    exact at?_everywhere hchange
  . intro pos hout
    apply nodeAt?_everywhere
    intro above habove
    exact hout above ((hmem above).mp habove)

theorem everywhere_replaces_outermost_nested :
    let r : Reading := ofLaw .doubleNegation
    let p : Formula := .conj (.neg (.neg (.neg (.neg (.var "P"))))) (.neg (.neg (.var "Q")))
    r.matchCount p = 4
      ∧ r.changes p = [([0], .neg (.neg (.var "P"))), ([1], .var "Q")]
      ∧ p.replaceEach [([1], .var "Q"), ([0], .neg (.neg (.var "P")))] = r.everywhere p
      ∧ (r.everywhere p).at? [1] = some (.var "Q")
      ∧ (r.everywhere p).nodeAt? [] = p.nodeAt? []
      ∧ r.everywhere (.var "P") = .var "P" := by
  intro r p
  have hchanges : r.changes p = [([0], .neg (.neg (.var "P"))), ([1], .var "Q")] := by decide
  obtain ⟨-, -, -, heach, hat, hnode, -⟩ := everywhere_replaces_outermost r p
  obtain ⟨-, -, -, -, -, -, hnone⟩ := everywhere_replaces_outermost r (.var "P")
  refine ⟨by decide, hchanges, heach _ ?_, hat [1] _ ?_, hnode [] ?_, hnone (by decide)⟩
  . rw [hchanges]
    apply List.Perm.swap
  . rw [hchanges]
    decide
  . intro above habove
    rw [List.prefix_nil]
    rintro rfl
    exact absurd habove (by decide)

end Reading

end ProofDesk
