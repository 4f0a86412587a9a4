import ProofDesk.Proofs.Law.Rewrites

/-!
This module contains the meaning of laws: the two sides of a law have the same truth value under
every assignment, and so a law keeps the truth value of every formula it is used on.
-/

namespace ProofDesk

namespace Formula

def Entails (p q : Formula) : Prop :=
  ∀ assign, p.eval assign = true → q.eval assign = true

@[simp]
theorem eval_const (assign : String → Bool) (b : Bool) : (const b).eval assign = b := by
  rfl

@[simp]
theorem eval_var (assign : String → Bool) (name : String) :
    (var name).eval assign = assign name := by
  rfl

@[simp]
theorem eval_neg (assign : String → Bool) (p : Formula) :
    (neg p).eval assign = !p.eval assign := by
  rfl

@[simp]
theorem eval_bin (assign : String → Bool) (c : Connective) (p q : Formula) :
    (bin c p q).eval assign = c.eval (p.eval assign) (q.eval assign) := by
  rfl

end Formula

@[simp]
theorem Lattice.dual_dual (l : Lattice) : l.dual.dual = l := by
  cases l <;> rfl

theorem Lattice.eq_of_ne_of_ne {l l₁ l₂ : Lattice} (h₁ : l₁ ≠ l) (h₂ : l₂ ≠ l) : l₁ = l₂ := by
  cases l <;> cases l₁ <;> cases l₂ <;> simp at h₁ h₂ ⊢

namespace Connective

variable (l : Lattice) (a b c : Bool)

@[simp]
theorem eval_implies : implies.eval a b = (!a || b) := by
  rfl

@[simp]
theorem eval_and : (lattice .and).eval a b = (a && b) := by
  rfl

@[simp]
theorem eval_or : (lattice .or).eval a b = (a || b) := by
  rfl

theorem eval_unit : (lattice l).eval a l.unit = a := by
  cases l <;> simp [Lattice.unit]

theorem eval_not_unit : (lattice l).eval a (!l.unit) = !l.unit := by
  cases l <;> simp [Lattice.unit]

theorem eval_idem : (lattice l).eval a a = a := by
  cases l <;> simp

theorem eval_comm : (lattice l).eval a b = (lattice l).eval b a := by
  cases l with
  | and => apply Bool.and_comm
  | or => apply Bool.or_comm

theorem eval_assoc :
    (lattice l).eval ((lattice l).eval a b) c = (lattice l).eval a ((lattice l).eval b c) := by
  cases l with
  | and => apply Bool.and_assoc
  | or => apply Bool.or_assoc

theorem eval_distrib (l' : Lattice) :
    (lattice l).eval a ((lattice l').eval b c)
      =
    (lattice l').eval ((lattice l).eval a b) ((lattice l).eval a c) := by
  cases l <;> cases l' <;> cases a <;> simp

theorem eval_absorb {l l' : Lattice} (h : l' ≠ l) :
    (lattice l).eval a ((lattice l').eval a b) = a := by
  cases l <;> cases l' <;> cases a <;> simp at h ⊢

theorem eval_complement : (lattice l).eval a (!a) = !l.unit := by
  cases l <;> cases a <;> rfl

theorem eval_dual : (lattice l.dual).eval (!a) (!b) = !(lattice l).eval a b := by
  cases l <;> simp [Lattice.dual]

end Connective

namespace Law

variable {law : Law} {p q : Formula} (assign : String → Bool)

theorem leftToRight?_eval_eq_eval (h : law.leftToRight? p = some q) :
    q.eval assign = p.eval assign := by
  unfold leftToRight? at h
  split at h
  . next l p b =>
    split at h <;> simp at h
    next hb =>
      subst hb h
      simp [Connective.eval_unit]
  . next l p b =>
    split at h <;> simp at h
    next hb =>
      have hb : b = !l.unit := by
        cases b <;> cases l <;> simp [Lattice.unit] at hb ⊢
      subst hb h
      simp [Connective.eval_not_unit]
  . split at h <;> simp at h
    next hp =>
      subst hp h
      simp [Connective.eval_idem]
  . simp only [Option.some.injEq] at h
    subst h
    simp only [Formula.eval_bin]
    rw [Connective.eval_comm]
  . split at h <;> simp at h
    next hl =>
      subst hl h
      simp [Connective.eval_assoc]
  . split at h <;> simp at h
    subst h
    simp only [Formula.eval_bin]
    rw [← Connective.eval_distrib]
  . split at h <;> simp at h
    next hl =>
      obtain ⟨hl, hp⟩ := hl
      subst hp h
      simp [Connective.eval_absorb _ _ hl]
  . split at h <;> simp at h
    next hp =>
      subst hp h
      simp [Connective.eval_complement]
  . simp only [Option.some.injEq] at h
    subst h
    simp [Connective.eval_dual]
  . simp only [Option.some.injEq] at h
    subst h
    simp
  . simp only [Option.some.injEq] at h
    subst h
    simp
  . simp only [Option.some.injEq] at h
    subst h
    simp [Bool.or_comm]
  . simp at h

theorem rightToLeft?_eval_eq_eval {choice : Option Lattice}
    (h : law.rightToLeft? choice p = some q) : q.eval assign = p.eval assign := by
  unfold rightToLeft? at h
  split at h
  . simp only [Option.map_eq_some_iff] at h
    obtain ⟨l, -, h⟩ := h
    subst h
    simp [Connective.eval_unit]
  . simp only [Option.map_eq_some_iff] at h
    obtain ⟨l, -, h⟩ := h
    subst h
    simp [Connective.eval_idem]
  . simp only [Option.some.injEq] at h
    subst h
    simp only [Formula.eval_bin]
    rw [Connective.eval_comm]
  . split at h <;> simp at h
    next hl =>
      subst hl h
      simp [Connective.eval_assoc]
  . split at h <;> simp at h
    next hl =>
      obtain ⟨h₁, h₂, hp⟩ := hl
      have hl := Lattice.eq_of_ne_of_ne h₁ h₂
      subst hl hp h
      simp only [Formula.eval_bin]
      rw [Connective.eval_distrib]
  . simp only [Option.some.injEq] at h
    subst h
    simp [← Connective.eval_dual]
  . simp only [Option.some.injEq] at h
    subst h
    simp
  . simp only [Option.some.injEq] at h
    subst h
    simp
  . simp only [Option.some.injEq] at h
    subst h
    simp [Bool.or_comm]
  . simp at h

end Law

namespace Reading

variable (r : Reading) (assign : String → Bool)

theorem atRoot?_eval_eq_eval {p q : Formula} (h : r.atRoot? p = some q) :
    q.eval assign = p.eval assign := by
  unfold atRoot? at h
  split at h
  . simp at h
  . split at h
    . exact Law.leftToRight?_eval_eq_eval assign h
    . exact Law.rightToLeft?_eval_eq_eval assign h

theorem Rewrites.eval_eq {r : Reading} {p q : Formula} (h : r.Rewrites p q)
    (assign : String → Bool) : q.eval assign = p.eval assign := by
  induction h with
  | refl => rfl
  | root h => exact r.atRoot?_eval_eq_eval assign h
  | neg _ ih => simp [ih]
  | bin _ _ ihp ihq => simp [ihp, ihq]

theorem atChosen_eval_eq_eval (chosen : Option Nat) (p : Formula) :
    (r.atChosen chosen p).eval assign = p.eval assign :=
  (r.rewrites_atChosen chosen p).eval_eq assign

theorem rewriting_eval_eq_eval (n : Nat) (p : Formula) :
    (r.everywhere p).eval assign = p.eval assign
      ∧ (r.atNth n p).eval assign = p.eval assign
      ∧ ∀ q, r.atRoot? p = some q → q.eval assign = p.eval assign := by
  refine ⟨?_, ?_, ?_⟩
  . exact (r.rewrites_everywhere p).eval_eq assign
  . exact (r.rewrites_atNth n p).eval_eq assign
  . intro q hq
    exact r.atRoot?_eval_eq_eval assign hq

theorem distributivity_eval_eq_eval :
    let p : Formula := .conj (.disj (.var "P") (.var "Q")) (.disj (.var "P") (.var "R"))
    let q : Formula := .disj (.var "P") (.conj (.var "Q") (.var "R"))
    (reversed .distributivity none).atRoot? p = some q
      ∧ ∀ assign, q.eval assign = p.eval assign := by
  intro p q
  have h : (reversed .distributivity none).atRoot? p = some q := by decide
  refine ⟨h, ?_⟩
  intro assign
  exact (rewriting_eval_eq_eval _ assign 0 p).2.2 q h

end Reading

end ProofDesk
