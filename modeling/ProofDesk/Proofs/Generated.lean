import Mathlib.Data.Finset.Sort
import Mathlib.Data.List.Perm.Subperm
import ProofDesk.Proofs.Stamps

/-!
This module contains the proof that the rows generated from a formula are exactly those that can be
reached along the links of the rows, whatever these links are: there may be cycles, sources that
belong to no row, and stamps that several rows share.

The rows reached within a number of steps grow with that number. As long as they grow there is a new
row each time, so after as many steps as there are rows they are all that can be reached. A
depth-first search that marks what it has found comes to an end for the same reason, and finds the
same rows.
-/

namespace ProofDesk.Derivation

/--
One step along the links, from a stamp to a row that was generated from it. No step leads to a row
that is its own source.
-/
def Generates (rows : List Row) (s : Stamp) (i : Nat) : Prop :=
  ∃ row, rows[i]? = some row ∧ row.line.source = some s ∧ row.line.stamp ≠ s

inductive Reaches (rows : List Row) : Stamp → Nat → Prop where
  | step {s : Stamp} {i : Nat} (h : Generates rows s i) : Reaches rows s i
  | next {s : Stamp} {i j : Nat} {row : Row} (h : Generates rows s i) (hrow : rows[i]? = some row)
      (hnext : Reaches rows row.line.stamp j) : Reaches rows s j

section Reaches

variable {rows : List Row} {s : Stamp} {i j : Nat} {row : Row}

theorem Reaches.snoc (h : Reaches rows s i) (hrow : rows[i]? = some row)
    (hstep : Generates rows row.line.stamp j) : Reaches rows s j := by
  induction h with
  | step h => exact .next h hrow (.step hstep)
  | next h hnext _ ih => exact .next h hnext (ih hrow)

theorem Reaches.of_closed {motive : Nat → Prop} (h : Reaches rows s j)
    (hfirst : ∀ i, Generates rows s i → motive i)
    (hclosed : ∀ i row, motive i → rows[i]? = some row →
      ∀ k, Generates rows row.line.stamp k → motive k) : motive j := by
  induction h with
  | step h => exact hfirst _ h
  | next h hrow _ ih => exact ih (hclosed _ _ (hfirst _ h) hrow)

end Reaches

section Rounds

variable {rows : List Row} {root : Stamp} {i j n : Nat}

theorem mem_generatedFrom_iff {stamps : List Stamp} :
    i ∈ generatedFrom rows stamps ↔ ∃ s ∈ stamps, Generates rows s i := by
  constructor
  . intro h
    obtain ⟨row, hrow, s, hs, hsource, hne⟩ := mem_generatedFrom h
    exact ⟨s, hs, row, hrow, hsource, hne.symm⟩
  . rintro ⟨s, hs, row, hrow, hsource, hne⟩
    obtain ⟨hlt, rfl⟩ := List.getElem?_eq_some_iff.mp hrow
    simp [generatedFrom, hlt, hsource, hs, hne.symm]

theorem mem_reachedWithin_succ :
    i ∈ reachedWithin rows root (n + 1)
      ↔
    Generates rows root i
      ∨ ∃ k ∈ reachedWithin rows root n, ∃ row, rows[k]? = some row
          ∧ Generates rows row.line.stamp i := by
  rw [reachedWithin, mem_generatedFrom_iff]
  simp only [List.mem_cons, List.mem_filterMap, Option.map_eq_some_iff]
  constructor
  . rintro ⟨s, rfl | ⟨k, hk, row, hrow, rfl⟩, h⟩
    . exact .inl h
    . exact .inr ⟨k, hk, row, hrow, h⟩
  . rintro (h | ⟨k, hk, row, hrow, h⟩)
    . exact ⟨root, .inl rfl, h⟩
    . exact ⟨_, .inr ⟨k, hk, row, hrow, rfl⟩, h⟩

theorem reachedWithin_succ_subset {m : Nat}
    (h : reachedWithin rows root m ⊆ reachedWithin rows root n) :
    reachedWithin rows root (m + 1) ⊆ reachedWithin rows root (n + 1) := by
  intro i hi
  rw [mem_reachedWithin_succ] at *
  rcases hi with hi | ⟨k, hk, hi⟩
  . exact .inl hi
  . exact .inr ⟨k, h hk, hi⟩

theorem reachedWithin_subset_succ (n : Nat) :
    reachedWithin rows root n ⊆ reachedWithin rows root (n + 1) := by
  induction n with
  | zero => simp [reachedWithin]
  | succ n ih => exact reachedWithin_succ_subset ih

theorem nodup_reachedWithin (n : Nat) : (reachedWithin rows root n).Nodup := by
  apply (pairwise_reachedWithin rows root n).imp
  apply Nat.ne_of_lt

theorem length_reachedWithin_le (rows : List Row) (root : Stamp) (n : Nat) :
    (reachedWithin rows root n).length ≤ rows.length := by
  cases n with
  | zero => simp [reachedWithin]
  | succ n =>
    rw [reachedWithin, generatedFrom]
    apply Nat.le_trans (List.length_filter_le ..)
    rw [List.length_range]

theorem length_reachedWithin_lt
    (hnew : ¬reachedWithin rows root (n + 1) ⊆ reachedWithin rows root n) :
    (reachedWithin rows root n).length < (reachedWithin rows root (n + 1)).length := by
  obtain ⟨j, hj, hnew⟩ : ∃ j ∈ reachedWithin rows root (n + 1), j ∉ reachedWithin rows root n := by
    simpa [List.subset_def] using hnew
  have hnodup : (j :: reachedWithin rows root n).Nodup :=
    List.nodup_cons.mpr ⟨hnew, nodup_reachedWithin n⟩
  have hsub : j :: reachedWithin rows root n ⊆ reachedWithin rows root (n + 1) :=
    List.cons_subset.mpr ⟨hj, reachedWithin_subset_succ n⟩
  exact (List.subperm_of_subset hnodup hsub).length_le

theorem lt_length_reachedWithin
    (hnew : ¬reachedWithin rows root (n + 1) ⊆ reachedWithin rows root n) :
    n < (reachedWithin rows root (n + 1)).length := by
  -- As long as the rounds find something new, there are more rows than rounds.
  have hgrows := length_reachedWithin_lt hnew
  induction n with
  | zero => omega
  | succ n ih =>
    -- If the round before had found nothing, neither would this one.
    have hprevious : ¬reachedWithin rows root (n + 1) ⊆ reachedWithin rows root n := by
      intro hstops
      exact hnew (reachedWithin_succ_subset hstops)
    have := ih hprevious (length_reachedWithin_lt hprevious)
    omega

theorem reachedWithin_length_succ_subset (rows : List Row) (root : Stamp) :
    reachedWithin rows root (rows.length + 1) ⊆ generated rows root := by
  by_contra hnew
  have hlt := lt_length_reachedWithin hnew
  have hle := length_reachedWithin_le rows root (rows.length + 1)
  omega

theorem reaches_of_mem_reachedWithin (h : i ∈ reachedWithin rows root n) : Reaches rows root i := by
  induction n generalizing i with
  | zero => simp [reachedWithin] at h
  | succ n ih =>
    rcases mem_reachedWithin_succ.mp h with h | ⟨k, hk, row, hrow, h⟩
    . exact .step h
    . exact (ih hk).snoc hrow h

theorem mem_generated_iff : i ∈ generated rows root ↔ Reaches rows root i := by
  constructor
  . exact reaches_of_mem_reachedWithin
  . intro h
    apply h.of_closed (motive := (· ∈ generated rows root))
    . intro k hk
      apply reachedWithin_length_succ_subset
      exact mem_reachedWithin_succ.mpr (.inl hk)
    . intro k row hk hrow l hl
      apply reachedWithin_length_succ_subset
      exact mem_reachedWithin_succ.mpr (.inr ⟨k, hk, row, hrow, hl⟩)

theorem pairwise_generated (rows : List Row) (root : Stamp) :
    (generated rows root).Pairwise (· < ·) :=
  pairwise_reachedWithin ..

theorem reachedWithin_eq_generated (h : rows.length ≤ n) :
    reachedWithin rows root n = generated rows root := by
  apply List.Pairwise.eq_of_mem_iff (pairwise_reachedWithin ..) (pairwise_generated ..)
  intro i
  constructor
  . intro hi
    exact mem_generated_iff.mpr (reaches_of_mem_reachedWithin hi)
  . intro hi
    induction h with
    | refl => exact hi
    | step _ ih => exact reachedWithin_subset_succ _ ih

end Rounds

section Search

theorem card_sdiff_lt {n i : Nat} {found all : Finset Nat} (hi : i < n) (hnew : i ∉ found)
    (hsub : insert i found ⊆ all) :
    (Finset.range n \ all).card < (Finset.range n \ found).card := by
  rw [Finset.insert_subset_iff] at hsub
  apply Finset.card_lt_card
  rw [Finset.ssubset_iff_of_subset (Finset.sdiff_subset_sdiff (Finset.Subset.refl _) hsub.2)]
  refine ⟨i, ?_, ?_⟩
  . simp [hi, hnew]
  . simp [hsub.1]

/--
Follow the links depth-first. The rows are tried in turn, from the `i`-th on. One that was generated
from `s` and has not been found yet is marked, then its own stamp is followed, and then the search
goes on with the row after it. What was found before stays found.
-/
def search (rows : List Row) (s : Stamp) (i : Nat) (found : Finset Nat) :
    {all : Finset Nat // found ⊆ all} :=
  match hrow : rows[i]? with
  | none => ⟨found, Finset.Subset.refl found⟩
  | some row =>
    if hnew : row.line.source = some s ∧ row.line.stamp ≠ s ∧ i ∉ found then
      let inner := search rows row.line.stamp 0 (insert i found)
      let outer := search rows s (i + 1) inner.val
      ⟨outer.val, (Finset.subset_insert i found).trans (inner.property.trans outer.property)⟩
    else
      search rows s (i + 1) found
-- Each row is marked once, and between two marks the rows are gone through once for each stamp.
termination_by ((Finset.range rows.length \ found).card, rows.length - i)
decreasing_by
  all_goals
    have hi : i < rows.length := (List.getElem?_eq_some_iff.mp hrow).1
  . exact Prod.Lex.left _ _ (card_sdiff_lt hi hnew.2.2 (Finset.Subset.refl _))
  . exact Prod.Lex.left _ _ (card_sdiff_lt hi hnew.2.2 inner.property)
  . exact Prod.Lex.right _ (by omega)

structure Searched (rows : List Row) (s : Stamp) (i : Nat) (found all : Finset Nat) : Prop where
  subset : found ⊆ all
  reached : ∀ j ∈ all, j ∉ found → Reaches rows s j
  first : ∀ j, i ≤ j → Generates rows s j → j ∈ all
  closed : ∀ j ∈ all, j ∉ found → ∀ row, rows[j]? = some row →
    ∀ k, Generates rows row.line.stamp k → k ∈ all

namespace Searched

variable {rows : List Row} {s : Stamp} {i : Nat} {found all : Finset Nat} {row : Row}

theorem stop (hrow : rows[i]? = none) : Searched rows s i found found where
  subset := Finset.Subset.refl found
  reached := fun j hj hnew => absurd hj hnew
  first := by
    rintro j hij ⟨row, hj, -⟩
    have hlt := (List.getElem?_eq_some_iff.mp hj).1
    have hle := List.getElem?_eq_none_iff.mp hrow
    omega
  closed := fun j hj hnew => absurd hj hnew

theorem extend (hi : Generates rows s i → i ∈ all) (h : Searched rows s (i + 1) found all) :
    Searched rows s i found all where
  subset := h.subset
  reached := h.reached
  first := by
    intro j hij hj
    cases Nat.eq_or_lt_of_le hij with
    | inl heq =>
      subst heq
      exact hi hj
    | inr hlt => exact h.first j hlt hj
  closed := h.closed

theorem enter {inner : Finset Nat} (hrow : rows[i]? = some row) (hi : Generates rows s i)
    (hinner : Searched rows row.line.stamp 0 (insert i found) inner)
    (houter : Searched rows s (i + 1) inner all) : Searched rows s (i + 1) found all := by
  -- A row is new in the outer search, or new in the inner one, or the row that was entered.
  have hcases : ∀ j, j ∉ found → j ∉ inner ∨ j ∈ inner ∧ j ∉ insert i found ∨ j = i := by
    intro j hj
    rw [Finset.mem_insert, not_or]
    grind
  refine ⟨?_, ?_, houter.first, ?_⟩
  . exact (Finset.subset_insert i found).trans (hinner.subset.trans houter.subset)
  . intro j hj hnew
    rcases hcases j hnew with h | ⟨hin, h⟩ | rfl
    . exact houter.reached j hj h
    . exact .next hi hrow (hinner.reached j hin h)
    . exact .step hi
  . intro j hj hnew row' hrow' k hk
    rcases hcases j hnew with h | ⟨hin, h⟩ | rfl
    . exact houter.closed j hj h row' hrow' k hk
    . exact houter.subset (hinner.closed j hin h row' hrow' k hk)
    . obtain rfl := Option.some.inj (hrow.symm.trans hrow')
      exact houter.subset (hinner.first k (Nat.zero_le k) hk)

end Searched

theorem searched_search (rows : List Row) (s : Stamp) (i : Nat) (found : Finset Nat) :
    Searched rows s i found (search rows s i found).val := by
  fun_induction search rows s i found with
  | case1 s i found hrow => exact .stop hrow
  | case2 s i found row hrow hnew inner outer ihinner ihouter =>
    have henter := ihinner.enter hrow ⟨row, hrow, hnew.1, hnew.2.1⟩ ihouter
    apply henter.extend
    intro _
    exact ihouter.subset (ihinner.subset (Finset.mem_insert_self i found))
  | case3 s i found row hrow hnew ih =>
    apply ih.extend
    rintro ⟨row', hrow', hsource, hne⟩
    obtain rfl := Option.some.inj (hrow.symm.trans hrow')
    apply ih.subset
    by_contra hfound
    exact hnew ⟨hsource, hne, hfound⟩

theorem mem_search_iff {rows : List Row} {root : Stamp} {i : Nat} :
    i ∈ (search rows root 0 ∅).val ↔ Reaches rows root i := by
  have h := searched_search rows root 0 ∅
  constructor
  . intro hi
    exact h.reached i hi (Finset.notMem_empty i)
  . intro hi
    apply hi.of_closed (motive := (· ∈ (search rows root 0 ∅).val))
    . intro j hj
      exact h.first j (Nat.zero_le j) hj
    . intro j row hj hrow
      exact h.closed j hj (Finset.notMem_empty j) row hrow

end Search

/--
The rows generated from a formula are those that can be reached along the links, in order and each
once. As many steps as there are rows are enough, and a depth-first search ends with the same rows.
-/
theorem generated_exact (rows : List Row) (root : Stamp) :
    (generated rows root).Pairwise (· < ·)
      ∧ (∀ i, i ∈ generated rows root ↔ Reaches rows root i)
      ∧ (∀ n, rows.length ≤ n → reachedWithin rows root n = generated rows root)
      ∧ (search rows root 0 ∅).val.sort = generated rows root := by
  refine ⟨pairwise_generated rows root, fun _ => mem_generated_iff,
    fun _ => reachedWithin_eq_generated, ?_⟩
  apply List.Pairwise.eq_of_mem_iff (Finset.sortedLT_sort _).pairwise (pairwise_generated rows root)
  intro i
  rw [Finset.mem_sort, mem_search_iff, mem_generated_iff]

def linkedRow (stamp source : Nat) : Row :=
  ⟨⟨[stamp]⟩,
    { Line.new (.const true) ⟨stamp⟩ (.unknown .backward) false true with source := some ⟨source⟩ }⟩

def tangledRows : List Row :=
  [linkedRow 1 2, linkedRow 2 1, linkedRow 3 3, linkedRow 4 1, linkedRow 4 3, linkedRow 5 9]

theorem tangledRows_generated_exact :
    generated tangledRows ⟨1⟩ = [0, 1, 3] ∧ Reaches tangledRows ⟨1⟩ 0
      ∧ ¬Reaches tangledRows ⟨1⟩ 4 := by
  have hgenerated : generated tangledRows ⟨1⟩ = [0, 1, 3] := by decide
  have hexact := (generated_exact tangledRows ⟨1⟩).2.1
  rw [← hexact, ← hexact, hgenerated]
  simp

end ProofDesk.Derivation
