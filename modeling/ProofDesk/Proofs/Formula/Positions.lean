import ProofDesk.Formula.Position

/-!
This module contains the theory of positions. What stands at a position is said by a relation that
follows the formula, the positions of a formula are those where something stands, each of them once,
and a subformula can be replaced at its position, whatever else the formula holds.
-/

namespace ProofDesk.Formula

inductive Occurs (sub : Formula) : Formula → Position → Prop where
  | root : Occurs sub sub []
  | neg {inner : Formula} {pos : Position} (h : Occurs sub inner pos) :
      Occurs sub (.neg inner) (0 :: pos)
  | left {c : Connective} {left right : Formula} {pos : Position} (h : Occurs sub left pos) :
      Occurs sub (.bin c left right) (0 :: pos)
  | right {c : Connective} {left right : Formula} {pos : Position} (h : Occurs sub right pos) :
      Occurs sub (.bin c left right) (1 :: pos)

section At

@[simp]
theorem at?_nil (p : Formula) : p.at? [] = some p := by
  cases p <;> rfl

@[simp]
theorem at?_neg_zero (inner : Formula) (pos : Position) :
    (neg inner).at? (0 :: pos) = inner.at? pos := by
  rfl

@[simp]
theorem at?_bin_zero (c : Connective) (left right : Formula) (pos : Position) :
    (bin c left right).at? (0 :: pos) = left.at? pos := by
  rfl

@[simp]
theorem at?_bin_one (c : Connective) (left right : Formula) (pos : Position) :
    (bin c left right).at? (1 :: pos) = right.at? pos := by
  rfl

theorem occurs_of_at?_eq_some {p sub : Formula} {pos : Position} (h : p.at? pos = some sub) :
    Occurs sub p pos := by
  induction pos generalizing p with
  | nil =>
    obtain rfl : p = sub := by simpa using h
    exact .root
  | cons i pos ih =>
    unfold at? at h
    split at h
    . next child hchild =>
      have hoccurs := ih h
      cases p with
      | const value => simp [children] at hchild
      | var name => simp [children] at hchild
      | neg inner =>
        match i with
        | 0 =>
          obtain rfl : inner = child := by simpa [children] using hchild
          exact .neg hoccurs
        | i + 1 => simp [children] at hchild
      | bin c left right =>
        match i with
        | 0 =>
          obtain rfl : left = child := by simpa [children] using hchild
          exact .left hoccurs
        | 1 =>
          obtain rfl : right = child := by simpa [children] using hchild
          exact .right hoccurs
        | i + 2 => simp [children] at hchild
    . simp at h

theorem at?_eq_some_iff {p sub : Formula} {pos : Position} :
    p.at? pos = some sub ↔ Occurs sub p pos := by
  constructor
  . exact occurs_of_at?_eq_some
  . intro h
    induction h with
    | root => simp
    | neg _ ih => simpa using ih
    | left _ ih => simpa using ih
    | right _ ih => simpa using ih

end At

section Positions

theorem nodup_positions (p : Formula) : p.positions.Nodup := by
  have hcons : ∀ (i : Nat) {poss : List Position}, poss.Nodup → (poss.map (i :: ·)).Nodup := by
    intro i poss h
    apply h.map
    simp
  induction p with
  | const value => simp [positions]
  | var name => simp [positions]
  | neg inner ih =>
    rw [positions, List.nodup_cons]
    exact ⟨by simp, hcons 0 ih⟩
  | bin c left right ihl ihr =>
    rw [positions, List.nodup_cons, List.nodup_append]
    refine ⟨by simp, hcons 0 ihl, hcons 1 ihr, ?_⟩
    simp only [List.forall_mem_map]
    simp

theorem mem_positions_iff {p : Formula} {pos : Position} :
    pos ∈ p.positions ↔ ∃ sub, Occurs sub p pos := by
  constructor
  . intro h
    induction p generalizing pos with
    | const value =>
      obtain rfl : pos = [] := by simpa [positions] using h
      exact ⟨_, .root⟩
    | var name =>
      obtain rfl : pos = [] := by simpa [positions] using h
      exact ⟨_, .root⟩
    | neg inner ih =>
      simp only [positions, List.mem_cons, List.mem_map] at h
      rcases h with rfl | ⟨pos, hpos, rfl⟩
      . exact ⟨_, .root⟩
      . obtain ⟨sub, hsub⟩ := ih hpos
        exact ⟨sub, .neg hsub⟩
    | bin c left right ihl ihr =>
      simp only [positions, List.mem_cons, List.mem_append, List.mem_map] at h
      rcases h with rfl | ⟨pos, hpos, rfl⟩ | ⟨pos, hpos, rfl⟩
      . exact ⟨_, .root⟩
      . obtain ⟨sub, hsub⟩ := ihl hpos
        exact ⟨sub, .left hsub⟩
      . obtain ⟨sub, hsub⟩ := ihr hpos
        exact ⟨sub, .right hsub⟩
  . rintro ⟨sub, h⟩
    induction h with
    | root => cases sub <;> simp [positions]
    | neg _ ih => simpa [positions] using ih
    | left _ ih => simpa [positions] using ih
    | right _ ih => simpa [positions] using ih

end Positions

section Replace

variable {p sub : Formula} {pos : Position}

@[simp]
theorem replaceAt_nil (p new : Formula) : p.replaceAt [] new = new := by
  cases p <;> rfl

theorem Occurs.replaceAt (h : Occurs sub p pos) (new : Formula) :
    Occurs new (p.replaceAt pos new) pos := by
  induction h with
  | root =>
    rw [replaceAt_nil]
    exact .root
  | neg _ ih => exact .neg ih
  | left _ ih => exact .left ih
  | right _ ih => exact .right ih

theorem Occurs.replaceAt_replaceAt (h : Occurs sub p pos) (new newer : Formula) :
    (p.replaceAt pos new).replaceAt pos newer = p.replaceAt pos newer := by
  induction h with
  | root => simp
  | neg _ ih => simp [Formula.replaceAt, ih]
  | left _ ih => simp [Formula.replaceAt, ih]
  | right _ ih => simp [Formula.replaceAt, ih]

theorem Occurs.replaceAt_self (h : Occurs sub p pos) : p.replaceAt pos sub = p := by
  induction h with
  | root => simp
  | neg _ ih => simp [Formula.replaceAt, ih]
  | left _ ih => simp [Formula.replaceAt, ih]
  | right _ ih => simp [Formula.replaceAt, ih]

end Replace

end ProofDesk.Formula
