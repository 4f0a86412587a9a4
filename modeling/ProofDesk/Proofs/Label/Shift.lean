import ProofDesk.Proofs.Label.Renumber
import ProofDesk.Proofs.Label.Scope
import ProofDesk.Proofs.Label.Text

/-!
This module contains the proof that renumbering keeps the structure of a derivation. Labels that are
moved up, or down into a place that has become free, stand in the same order and see each other as
they did before, and moving up can be undone.
-/

namespace ProofDesk.Label

section Iff

variable {pos x y : Label} {k : Nat}

theorem before_iff_of_mono {x' y' : Label} (hxy : x.before y → x'.before y')
    (hyx : y.before x → y'.before x') (heq : x = y → x' = y') : x'.before y' ↔ x.before y := by
  -- The order is total, so to keep it both ways is to reflect it.
  constructor
  . intro h
    rcases before_or_eq_or_before x y with hlt | hsame | hgt
    . exact hlt
    . simp [heq hsame, before_irrefl] at h
    . simp [before_asymm (hyx hgt)] at h
  . exact hxy

theorem moveFrom_add_before_iff (pos x y : Label) (k : Nat) :
    (moveFrom (· + k) pos x).before (moveFrom (· + k) pos y) ↔ x.before y := by
  apply before_iff_of_mono
  . apply moveFrom_add_before
  . apply moveFrom_add_before
  . rintro rfl
    rfl

theorem moveFrom_add_visibleAt_iff (pos x y : Label) (k : Nat) :
    (moveFrom (· + k) pos x).visibleAt (moveFrom (· + k) pos y) ↔ x.visibleAt y := by
  by_cases hpos : pos.parts = []
  . rw [eq_of_parts (b := ⟨[]⟩) hpos]
    simp
  constructor
  . intro hv
    obtain ⟨hbefore, hinside⟩ := visibleAt_iff.mp hv
    refine visibleAt_iff.mpr ⟨(moveFrom_add_before_iff pos x y k).mp hbefore, ?_⟩
    intro h hin
    by_cases hh : h = pos
    . subst hh
      apply isInside_of_moveFrom_add_isInside_self (k := k) hpos
      apply hinside
      rwa [moveFrom_of_before _ (before_of_isInside hin)]
    . have hmoved := hinside _ (moveFrom_isInside (· + k) hh hin)
      apply isInside_of_moveFrom_add_isInside k hmoved
  . apply moveFrom_add_visibleAt

theorem moveFrom_sub_moveFrom_add (pos l : Label) (hk : 0 < k) :
    moveFrom (· - k) pos (moveFrom (· + k) pos l) = l := by
  obtain ⟨ns⟩ := pos
  obtain ⟨ms⟩ := l
  induction ns generalizing ms with
  | nil => simp
  | cons n ns ih =>
    cases ms with
    | nil => simp
    | cons m ms =>
      cases ns with
      | nil =>
        rw [moveFrom_singleton]
        split
        . rw [moveFrom_singleton, if_pos (by omega), Nat.add_sub_cancel]
        . next h => rw [moveFrom_singleton, if_neg h]
      | cons n' ns =>
        rw [moveFrom_cons_cons]
        split
        . next h => rw [moveFrom_cons_cons, if_pos h, mk_parts, ih]
        . next h => rw [moveFrom_cons_cons, if_neg h]

def Outside (pos l : Label) : Prop :=
  l ≠ pos ∧ l.isInside pos = false

theorem Outside.of_isInside {h : Label} (hx : Outside pos x) (hin : x.isInside h) :
    Outside pos h := by
  constructor
  . rintro rfl
    simp [hx.2] at hin
  . rw [← Bool.not_eq_true]
    intro hpos
    simpa [hx.2] using isInside_trans hin hpos

theorem moveFrom_pred_before_iff (hx : Outside pos x) (hy : Outside pos y) :
    (moveFrom (· - 1) pos x).before (moveFrom (· - 1) pos y) ↔ x.before y := by
  apply before_iff_of_mono
  . apply moveFrom_pred_before hx.1 hy.1
    simp [hx.2]
  . apply moveFrom_pred_before hy.1 hx.1
    simp [hy.2]
  . rintro rfl
    rfl

theorem moveFrom_pred_visibleAt_iff (hx : Outside pos x) (hy : Outside pos y) :
    (moveFrom (· - 1) pos x).visibleAt (moveFrom (· - 1) pos y) ↔ x.visibleAt y := by
  constructor
  . intro hv
    obtain ⟨hbefore, hinside⟩ := visibleAt_iff.mp hv
    refine visibleAt_iff.mpr ⟨(moveFrom_pred_before_iff hx hy).mp hbefore, ?_⟩
    intro h hin
    have hh := hx.of_isInside hin
    have hmoved := hinside _ (moveFrom_isInside (· - 1) hh.1 hin)
    have hcases := isInside_of_moveFrom_pred_isInside hy.1 hh.1 (by simp [hy.2]) (by simp [hh.2])
      hmoved
    simpa [hy.2] using hcases
  . apply moveFrom_pred_visibleAt hx.1 hy.1

end Iff

def StaysInRange (pos : Label) (k : Nat) (l : Label) : Prop :=
  ∀ n ∈ (moveFrom (· + k) pos l).parts, n ≤ maxPart

theorem staysInRange_of_forall {l : Label} {k : Nat} (h : ∀ n ∈ l.parts, n + k ≤ maxPart)
    (pos : Label) : StaysInRange pos k l := by
  apply forall_parts_moveFrom
  intro m hm
  exact ⟨Nat.le_trans (Nat.le_add_right m k) (h m hm), h m hm⟩

/--
Moving up keeps order and scope, can be undone and leaves `k` places free from `pos` on. Moving down
by one keeps order and scope of the labels that survive; none of their numbers gets to 0, and the
label after `pos` takes its place.
-/
theorem shift_keeps_structure (pos x y : Label) :
    (∀ k : Nat, 0 < k → StaysInRange pos k x → StaysInRange pos k y →
      ((x.shift pos k).before (y.shift pos k) ↔ x.before y)
        ∧ ((x.shift pos k).visibleAt (y.shift pos k) ↔ x.visibleAt y)
        ∧ (x.shift pos k).shift pos (-k) = x
        ∧ (pos.parts ≠ [] → ∀ t < k, x.shift pos k ≠ pos.addLast t))
    ∧ (x.Proper → y.Proper → Outside pos x → Outside pos y →
      ((x.shift pos (-1)).before (y.shift pos (-1)) ↔ x.before y)
        ∧ ((x.shift pos (-1)).visibleAt (y.shift pos (-1)) ↔ x.visibleAt y)
        ∧ (pos.Proper → ∀ n ∈ (x.shift pos (-1)).parts, 0 < n)
        ∧ (x = pos.addLast 1 → x.shift pos (-1) = pos)) := by
  constructor
  . intro k hk hx hy
    rw [shift_of_le hx, shift_of_le hy, shift_neg k hx]
    refine ⟨?_, ?_, ?_, ?_⟩
    . apply moveFrom_add_before_iff
    . apply moveFrom_add_visibleAt_iff
    . apply moveFrom_sub_moveFrom_add pos x hk
    . intro hpos t ht
      apply moveFrom_add_ne_addLast hpos x ht
  . intro hx hy hxpos hypos
    rw [shift_neg_one fun n hn => (hx.2 n hn).2, shift_neg_one fun n hn => (hy.2 n hn).2]
    refine ⟨?_, ?_, ?_, ?_⟩
    . apply moveFrom_pred_before_iff hxpos hypos
    . apply moveFrom_pred_visibleAt_iff hxpos hypos
    . intro hpos
      apply pos_of_mem_moveFrom_pred
      . exact fun n hn => (hpos.2 n hn).1
      . exact fun n hn => (hx.2 n hn).1
      . exact hxpos.1
    . rintro rfl
      apply moveFrom_pred_addLast_one

theorem nestedLabels_shift_keeps_structure :
    (StaysInRange ⟨[2, 1]⟩ 2 ⟨[2, 1, 1]⟩ ∧ StaysInRange ⟨[2, 1]⟩ 2 ⟨[2, 1]⟩
      ∧ (shift ⟨[2, 1, 1]⟩ ⟨[2, 1]⟩ (2 : Nat)).before (shift ⟨[2, 1]⟩ ⟨[2, 1]⟩ (2 : Nat)))
    ∧ (Proper ⟨[1]⟩ ∧ Proper ⟨[3, 1]⟩ ∧ Outside ⟨[2]⟩ ⟨[1]⟩ ∧ Outside ⟨[2]⟩ ⟨[3, 1]⟩
      ∧ (shift ⟨[1]⟩ ⟨[2]⟩ (-1)).visibleAt (shift ⟨[3, 1]⟩ ⟨[2]⟩ (-1))) := by
  have hx : StaysInRange ⟨[2, 1]⟩ 2 ⟨[2, 1, 1]⟩ := staysInRange_of_forall (by decide) _
  have hy : StaysInRange ⟨[2, 1]⟩ 2 ⟨[2, 1]⟩ := staysInRange_of_forall (by decide) _
  have hup := (shift_keeps_structure ⟨[2, 1]⟩ ⟨[2, 1, 1]⟩ ⟨[2, 1]⟩).1 2 (by decide) hx hy
  have hx' : Outside ⟨[2]⟩ ⟨[1]⟩ := ⟨by decide, by decide⟩
  have hy' : Outside ⟨[2]⟩ ⟨[3, 1]⟩ := ⟨by decide, by decide⟩
  have hdown := (shift_keeps_structure ⟨[2]⟩ ⟨[1]⟩ ⟨[3, 1]⟩).2 (by decide) (by decide) hx' hy'
  refine ⟨⟨hx, hy, ?_⟩, by decide, by decide, hx', hy', ?_⟩
  . apply hup.1.mpr
    decide
  . apply hdown.2.1.mpr
    decide

end ProofDesk.Label
