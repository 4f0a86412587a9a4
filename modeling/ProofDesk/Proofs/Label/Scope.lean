import ProofDesk.Proofs.Label.Order

/-!
This module contains how the proof order and the scope of labels fit together. A line is visible
exactly from the later lines that lie in every subproof that it lies in itself, and the laws of
visibility follow from those of the order and of nesting.
-/

namespace ProofDesk.Label

section Compare

variable {a b c : Label}

theorem compare_eq_lt_iff : a.compare b = .lt ↔ a.before b := by
  simp [before]

theorem compare_eq_eq_iff : a.compare b = .eq ↔ a = b := by
  obtain ⟨as⟩ := a
  obtain ⟨bs⟩ := b
  induction as generalizing bs with
  | nil => cases bs <;> simp [compare, compare.go]
  | cons a as ih =>
    cases bs with
    | nil => simp [compare, compare.go]
    | cons b bs =>
      have := ih bs
      simp only [compare, mk.injEq] at this
      simp [compare, compare.go, Ordering.then_eq_eq, this]

theorem compare_swap (a b : Label) : (a.compare b).swap = b.compare a := by
  obtain ⟨as⟩ := a
  obtain ⟨bs⟩ := b
  induction as generalizing bs with
  | nil => cases bs <;> rfl
  | cons a as ih =>
    cases bs with
    | nil => rfl
    | cons b bs =>
      have := ih bs
      simp only [compare] at this
      simp [compare, compare.go, Ordering.swap_then, Nat.compare_swap, this]

theorem before_append_cons (p : List Nat) {m n : Nat} (h : m < n) (ms ns : List Nat) :
    before ⟨p ++ m :: ms⟩ ⟨p ++ n :: ns⟩ := by
  induction p with
  | nil => simp [h]
  | cons q p ih => simpa using ih

theorem isLE_compare_iff : (a.compare b).isLE ↔ a.before b ∨ a = b := by
  rw [Ordering.isLE_iff_eq_lt_or_eq_eq, compare_eq_lt_iff, compare_eq_eq_iff]

instance : Std.LawfulEqCmp compare where
  compare_self := compare_eq_eq_iff.mpr rfl
  eq_of_compare := compare_eq_eq_iff.mp

instance : Std.TransCmp compare where
  eq_swap := (compare_swap ..).symm
  isLE_trans hab hbc := by
    rw [isLE_compare_iff] at *
    rcases hab with hab | rfl
    . rcases hbc with hbc | rfl
      . exact .inl (before_trans hab hbc)
      . exact .inl hab
    . exact hbc

end Compare

section Scope

variable {l here h : Label}

theorem isInside_iff_isPrefix : l.isInside h ↔ h.parts <+: l.parts ∧ h.parts ≠ l.parts := by
  obtain ⟨ls⟩ := l
  obtain ⟨hs⟩ := h
  induction ls generalizing hs with
  | nil => cases hs <;> simp
  | cons n ls ih =>
    cases hs with
    | nil => simp
    | cons m hs =>
      simp only [isInside_cons_cons, ih hs, List.cons_prefix_cons, ne_eq, List.cons.injEq]
      grind

theorem visibleAt_iff :
    l.visibleAt here ↔ l.before here ∧ ∀ h, l.isInside h → here.isInside h := by
  constructor
  . intro hv
    exact ⟨before_of_visibleAt hv, fun _ => isInside_of_visibleAt hv⟩
  . rintro ⟨hbefore, hinside⟩
    obtain ⟨ls⟩ := l
    obtain ⟨ms⟩ := here
    induction ls generalizing ms with
    | nil => simp at hbefore
    | cons n ls ih =>
      cases ms with
      | nil => simpa using hinside ⟨[]⟩
      | cons m ms =>
        simp only [before_cons_cons] at hbefore
        simp only [visibleAt_cons_cons]
        rcases hbefore with hlt | ⟨rfl, hbefore⟩
        . -- A line with more parts would lie in the subproof of `n`, and `here` does not.
          cases ls with
          | nil => exact .inl ⟨hlt, rfl⟩
          | cons n' ls =>
            have hheader : isInside ⟨m :: ms⟩ ⟨[n]⟩ := hinside ⟨[n]⟩ (by simp)
            rw [isInside_cons_cons] at hheader
            omega
        . refine .inr ⟨rfl, ih ms hbefore ?_⟩
          rintro ⟨hs⟩ hin
          simpa [hin] using hinside ⟨n :: hs⟩

theorem visibleAt_irrefl (l : Label) : l.visibleAt l = false := by
  rw [← Bool.not_eq_true]
  intro hv
  simpa [before_irrefl] using before_of_visibleAt hv

theorem visibleAt_trans {a b c : Label} (hab : a.visibleAt b) (hbc : b.visibleAt c) :
    a.visibleAt c := by
  rw [visibleAt_iff] at *
  exact ⟨before_trans hab.1 hbc.1, fun h hin => hbc.2 h (hab.2 h hin)⟩

theorem visibleAt_of_isInside (hv : l.visibleAt here) (hin : h.isInside here) : l.visibleAt h := by
  have hout := not_isInside_of_visibleAt hv
  rw [visibleAt_iff] at *
  refine ⟨before_of_before_of_isInside hv.1 hout hin, fun header hl => ?_⟩
  exact isInside_trans hin (hv.2 header hl)

theorem not_visibleAt_of_isInside (hin : l.isInside h) : h.visibleAt l = false := by
  rw [← Bool.not_eq_true]
  intro hv
  simpa [before_asymm (before_of_isInside hin)] using before_of_visibleAt hv

end Scope

/--
The proof order is total. The first part in which two labels differ decides, and the lines of a
subproof stand before its header. What is visible are the earlier lines that are not shut in a
subproof; they stay visible inside of later lines. A header and the lines of its subproof do not see
each other, and nobody sees into a subproof from outside.
-/
theorem order_and_scope_fit (a b c : Label) :
    (b.compare a = (a.compare b).swap
      ∧ (a.compare b = .eq ↔ a = b)
      ∧ ((a.compare b).isLE → (b.compare c).isLE → (a.compare c).isLE)
      ∧ (∀ (p ms ns : List Nat) (m n : Nat), m < n →
          compare ⟨p ++ m :: ms⟩ ⟨p ++ n :: ns⟩ = .lt)
      ∧ (a.isInside b ↔ b.parts <+: a.parts ∧ b.parts ≠ a.parts)
      ∧ (a.isInside b → a.compare b = .lt))
    ∧ (a.visibleAt b ↔ a.compare b = .lt ∧ ∀ h, a.isInside h → b.isInside h)
    ∧ a.visibleAt a = false
    ∧ (a.visibleAt b → b.visibleAt c → a.visibleAt c)
    ∧ (a.visibleAt b → a.compare b = .lt)
    ∧ (a.visibleAt b → c.isInside b → a.visibleAt c)
    ∧ (a.isInside b → a.visibleAt b = false ∧ b.visibleAt a = false)
    ∧ (a.visibleAt b → a.isInside c → c.parts <+: b.parts ∧ c.parts ≠ b.parts) := by
  simp only [compare_eq_lt_iff]
  refine ⟨⟨?_, ?_, ?_, ?_, isInside_iff_isPrefix, before_of_isInside⟩, visibleAt_iff,
    visibleAt_irrefl a, visibleAt_trans, before_of_visibleAt, visibleAt_of_isInside, ?_, ?_⟩
  . apply Std.OrientedCmp.eq_swap
  . apply Std.LawfulEqCmp.compare_eq_iff_eq
  . apply Std.TransCmp.isLE_trans
  . intro p ms ns m n h
    apply before_append_cons p h
  . intro hin
    refine ⟨?_, not_visibleAt_of_isInside hin⟩
    rw [← Bool.not_eq_true]
    intro hv
    simp [not_isInside_of_visibleAt hv] at hin
  . intro hv hin
    apply isInside_iff_isPrefix.mp
    apply isInside_of_visibleAt hv hin

theorem nestedLabels_order_and_scope_fit :
    (visibleAt ⟨[2, 1]⟩ ⟨[2, 2]⟩ ∧ isInside ⟨[2, 2, 1]⟩ ⟨[2, 2]⟩ ∧ visibleAt ⟨[2, 1]⟩ ⟨[2, 2, 1]⟩)
      ∧ isInside ⟨[2, 1]⟩ ⟨[2]⟩ ∧ [2] <+: [2, 2] ∧ [2] ≠ [2, 2] := by
  have hv : visibleAt ⟨[2, 1]⟩ ⟨[2, 2]⟩ := by decide
  have hin : isInside ⟨[2, 2, 1]⟩ ⟨[2, 2]⟩ := by decide
  have hin' : isInside ⟨[2, 1]⟩ ⟨[2]⟩ := by decide
  obtain ⟨-, -, -, -, -, hinside, -⟩ := order_and_scope_fit ⟨[2, 1]⟩ ⟨[2, 2]⟩ ⟨[2, 2, 1]⟩
  obtain ⟨-, -, -, -, -, -, -, hheader⟩ := order_and_scope_fit ⟨[2, 1]⟩ ⟨[2, 2]⟩ ⟨[2]⟩
  exact ⟨⟨hv, hin, hinside hv hin⟩, hin', hheader hv hin'⟩

end ProofDesk.Label
