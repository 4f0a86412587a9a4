import ProofDesk.Derivation.Basic
import ProofDesk.Proofs.Editing
import ProofDesk.Proofs.Label.Order

/-!
This module contains the theory of rows in proof order.
-/

namespace ProofDesk.Derivation

def Ordered (rows : List Row) : Prop :=
  rows.Pairwise fun a b => a.label.before b.label

instance (rows : List Row) : Decidable (Ordered rows) :=
  inferInstanceAs (Decidable (rows.Pairwise fun a b => a.label.before b.label))

theorem ordered_iff_labels {rows : List Row} :
    Ordered rows ↔ (rows.map Row.label).Pairwise fun a b => a.before b := by
  rw [List.pairwise_map]
  rfl

theorem exists_of_mem_of_labels {rows rows' : List Row}
    (h : rows'.map Row.label = rows.map Row.label) {y : Row} (hy : y ∈ rows') :
    ∃ x ∈ rows, x.label = y.label := by
  have hmem := List.mem_map_of_mem (f := Row.label) hy
  rwa [h, List.mem_map] at hmem

namespace Ordered

variable {rows : List Row}

theorem before_of_lt (h : Ordered rows) {i j : Nat} {a b : Row} (ha : rows[i]? = some a)
    (hb : rows[j]? = some b) (hij : i < j) : a.label.before b.label := by
  obtain ⟨hi, rfl⟩ := List.getElem?_eq_some_iff.mp ha
  obtain ⟨hj, rfl⟩ := List.getElem?_eq_some_iff.mp hb
  exact List.pairwise_iff_getElem.mp h i j hi hj hij

theorem lt_of_before (h : Ordered rows) {i j : Nat} {a b : Row} (ha : rows[i]? = some a)
    (hb : rows[j]? = some b) (hab : a.label.before b.label) : i < j := by
  rcases Nat.lt_trichotomy i j with hij | hij | hij
  . exact hij
  . subst hij
    have : a = b := by simpa [ha] using hb
    simp [this, Label.before_irrefl] at hab
  . simp [Label.before_asymm (h.before_of_lt hb ha hij)] at hab

theorem label_mem_take_of_before (h : Ordered rows) {i : Nat} {a b : Row} (ha : a ∈ rows)
    (hb : rows[i]? = some b) (hab : a.label.before b.label) :
    a.label ∈ (rows.map Row.label).take i := by
  obtain ⟨j, hj⟩ := List.getElem?_of_mem ha
  have hlt := h.lt_of_before hj hb hab
  rw [← List.map_take]
  apply List.mem_map_of_mem
  apply List.mem_of_getElem? (i := j)
  rw [List.getElem?_take_of_lt hlt, hj]

theorem label_eq_iff (h : Ordered rows) {i j : Nat} {a b : Row} (ha : rows[i]? = some a)
    (hb : rows[j]? = some b) : a.label = b.label ↔ i = j := by
  constructor
  . intro hab
    rcases Nat.lt_trichotomy i j with hij | hij | hij
    . simpa [hab, Label.before_irrefl] using h.before_of_lt ha hb hij
    . exact hij
    . simpa [hab, Label.before_irrefl] using h.before_of_lt hb ha hij
  . rintro rfl
    have : a = b := by simpa [ha] using hb
    rw [this]

theorem eq_of_label_eq (h : Ordered rows) {a b : Row} (ha : a ∈ rows) (hb : b ∈ rows)
    (hab : a.label = b.label) : a = b := by
  obtain ⟨i, hi⟩ := List.getElem?_of_mem ha
  obtain ⟨j, hj⟩ := List.getElem?_of_mem hb
  obtain rfl := (h.label_eq_iff hi hj).mp hab
  simpa [hi] using hj

section Around

variable {before after : List Row} {row x : Row} (h : Ordered (before ++ row :: after))
include h

theorem before_of_mem_left (hx : x ∈ before) : x.label.before row.label :=
  (List.pairwise_append.mp h).2.2 x hx row List.mem_cons_self

theorem before_of_mem_right (hx : x ∈ after) : row.label.before x.label :=
  (List.pairwise_cons.mp (List.pairwise_append.mp h).2.1).1 x hx

theorem mem_left_of_before (hx : x ∈ before ++ row :: after) (hbefore : x.label.before row.label) :
    x ∈ before := by
  simp only [List.mem_append, List.mem_cons] at hx
  rcases hx with hx | rfl | hx
  . exact hx
  . simp [Label.before_irrefl] at hbefore
  . have := Label.before_asymm (h.before_of_mem_right hx)
    simp [hbefore] at this

theorem label_ne_of_mem (hx : x ∈ before ++ after) : x.label ≠ row.label := by
  intro heq
  cases List.mem_append.mp hx with
  | inl hx => simpa [heq, Label.before_irrefl] using h.before_of_mem_left hx
  | inr hx => simpa [heq, Label.before_irrefl] using h.before_of_mem_right hx

theorem not_isInside_of_mem_right (hx : x ∈ after) : x.label.isInside row.label = false := by
  rw [← Bool.not_eq_true]
  intro hin
  have := Label.before_asymm (h.before_of_mem_right hx)
  simp [Label.before_of_isInside hin] at this

theorem exists_split_isInside : ∃ outer inner, before = outer ++ inner
    ∧ (∀ x ∈ outer, x.label.isInside row.label = false)
    ∧ ∀ x ∈ inner, x.label.isInside row.label := by
  induction before with
  | nil => exact ⟨[], [], rfl, by simp, by simp⟩
  | cons a before ih =>
    cases hin : a.label.isInside row.label with
    | false =>
      obtain ⟨outer, inner, rfl, houter, hinner⟩ := ih (List.Pairwise.of_cons h)
      refine ⟨a :: outer, inner, rfl, ?_, hinner⟩
      intro x hx
      cases List.mem_cons.mp hx with
      | inl hx => rw [hx, hin]
      | inr hx => exact houter x hx
    | true =>
      refine ⟨[], a :: before, rfl, by simp, ?_⟩
      intro x hx
      cases List.mem_cons.mp hx with
      | inl hx => rw [hx, hin]
      | inr hx =>
        apply Label.isInside_of_before_of_before hin
        . exact (List.pairwise_cons.mp h).1 x (List.mem_append_left _ hx)
        . exact h.before_of_mem_left (List.mem_cons_of_mem _ hx)

end Around

theorem insert_children {before after : List Row} {row first second : Row}
    (h : Ordered (before ++ row :: after))
    (hinside : ∀ x ∈ before, x.label.isInside row.label = false)
    (hfirst : first.label = row.label.child 1) (hsecond : second.label = row.label.child 2) :
    Ordered (before ++ first :: second :: row :: after) := by
  have hchild : ∀ k, ∀ x ∈ before, x.label.before (row.label.child k) := fun k x hx =>
    Label.before_child_of_before (h.before_of_mem_left hx) (hinside x hx) k
  have hrow : ∀ k, (row.label.child k).before row.label :=
    fun k => Label.before_of_isInside (Label.isInside_child row.label k)
  have hafter : ∀ k, ∀ x ∈ after, (row.label.child k).before x.label :=
    fun k x hx => Label.before_trans (hrow k) (h.before_of_mem_right hx)
  obtain ⟨hordered, hordered', hcross⟩ := List.pairwise_append.mp h
  refine List.pairwise_append.mpr ⟨hordered, ?_, ?_⟩
  . refine .cons ?_ (.cons ?_ hordered')
    . simp only [List.mem_cons, forall_eq_or_imp, hfirst, hsecond]
      exact ⟨Label.child_before_child row.label (by decide), hrow 1, hafter 1⟩
    . simp only [List.mem_cons, forall_eq_or_imp, hsecond]
      exact ⟨hrow 2, hafter 2⟩
  . intro x hx y hy
    simp only [List.mem_cons] at hy
    rcases hy with rfl | rfl | hy
    . exact hfirst ▸ hchild 1 x hx
    . exact hsecond ▸ hchild 2 x hx
    . exact hcross x hx y (List.mem_cons.mpr hy)

theorem mem_of_between {before inner after : List Row} {a b x : Row}
    (h : Ordered (before ++ a :: (inner ++ b :: after)))
    (hx : x ∈ before ++ a :: (inner ++ b :: after)) (hax : a.label.before x.label)
    (hxb : x.label.before b.label) : x ∈ inner := by
  have h' : Ordered (before ++ a :: inner ++ b :: after) := by simpa using h
  simp only [List.mem_append, List.mem_cons] at hx
  rcases hx with hx | rfl | hx | rfl | hx
  . have := Label.before_asymm (h.before_of_mem_left hx)
    simp [hax] at this
  . simp [Label.before_irrefl] at hax
  . exact hx
  . simp [Label.before_irrefl] at hxb
  . have := Label.before_asymm (h'.before_of_mem_right hx)
    simp [hxb] at this

theorem induction (h : Ordered rows) {motive : Row → Prop}
    (step : ∀ row ∈ rows, (∀ c ∈ rows, c.label.before row.label → motive c) → motive row) :
    ∀ row ∈ rows, motive row := by
  have hindex : ∀ (n i : Nat) (row : Row), i < n → rows[i]? = some row → motive row := by
    intro n
    induction n with
    | zero =>
      intro i row hi
      omega
    | succ n ih =>
      intro i row hi hrow
      apply step row (List.mem_of_getElem? hrow)
      intro c hc hbefore
      obtain ⟨j, hj⟩ := List.getElem?_of_mem hc
      have := h.lt_of_before hj hrow hbefore
      exact ih j c (by omega) hj
  intro row hrow
  obtain ⟨i, hi⟩ := List.getElem?_of_mem hrow
  exact hindex (i + 1) i row (by omega) hi

end Ordered

end ProofDesk.Derivation
