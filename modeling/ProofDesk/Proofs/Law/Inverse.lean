import Mathlib.Data.List.Nodup
import ProofDesk.Proofs.Law.Meaning

/-!
This module contains the way back from a law: what a law makes of a match is a match of the same law
read in the other direction, at the same position, and there it gives the first formula again. The
number of that match is another one in general.
-/

namespace ProofDesk

def Formula.lattice : Formula → Lattice
  | .latt l _ _ => l
  | _ => .and

namespace Law

variable {law : Law} {p q : Formula}

theorem rightToLeft?_of_leftToRight?_eq_some (hlaw : law.isReversible = true)
    (h : law.leftToRight? p = some q) : law.rightToLeft? (some p.lattice) q = some p := by
  unfold leftToRight? at h
  split at h
  . next l p b =>
    split at h <;> simp at h
    next hb =>
      subst hb h
      rfl
  . simp [isReversible] at hlaw
  . split at h <;> simp at h
    next hp =>
      subst hp h
      rfl
  . simp only [Option.some.injEq] at h
    subst h
    rfl
  . split at h <;> simp at h
    next hl =>
      subst hl h
      simp [rightToLeft?]
  . split at h <;> simp at h
    next hl =>
      subst h
      simp [rightToLeft?, Ne.symm hl]
  . simp [isReversible] at hlaw
  . simp [isReversible] at hlaw
  . next l p q =>
    simp only [Option.some.injEq] at h
    subst h
    cases l <;> rfl
  . simp only [Option.some.injEq] at h
    subst h
    rfl
  . simp only [Option.some.injEq] at h
    subst h
    rfl
  . simp only [Option.some.injEq] at h
    subst h
    rfl
  . simp at h

theorem leftToRight?_of_rightToLeft?_eq_some {choice : Option Lattice}
    (h : law.rightToLeft? choice p = some q) : law.leftToRight? q = some p := by
  unfold rightToLeft? at h
  split at h
  . simp only [Option.map_eq_some_iff] at h
    obtain ⟨l, -, h⟩ := h
    subst h
    simp [leftToRight?]
  . simp only [Option.map_eq_some_iff] at h
    obtain ⟨l, -, h⟩ := h
    subst h
    simp [leftToRight?]
  . simp only [Option.some.injEq] at h
    subst h
    rfl
  . split at h <;> simp at h
    next hl =>
      subst hl h
      simp [leftToRight?]
  . split at h <;> simp at h
    next hl =>
      obtain ⟨h₁, h₂, hp⟩ := hl
      have hl := Lattice.eq_of_ne_of_ne h₁ h₂
      subst hl hp h
      simp [leftToRight?, Ne.symm h₁]
  . next l p q =>
    simp only [Option.some.injEq] at h
    subst h
    cases l <;> rfl
  . simp only [Option.some.injEq] at h
    subst h
    rfl
  . simp only [Option.some.injEq] at h
    subst h
    rfl
  . simp only [Option.some.injEq] at h
    subst h
    rfl
  . simp at h

end Law

namespace Reading

open Formula (Occurs)

variable {r : Reading} {p sub new : Formula} {pos : Position} {n : Nat}

def Leads (r : Reading) (pos : Position) (p q : Formula) : Prop :=
  (r.matchPositions p).count pos = 1
    ∧ ∀ n, (r.matchPositions p)[n]? = some pos → r.atNth n p = q

/--
The reading that takes back what `r` makes of `sub`. From left to right the choice of a connective
makes no difference.
-/
def back (r : Reading) (sub : Formula) (choice : Option Lattice) : Reading :=
  if r.leftToRight then ⟨r.law, false, some sub.lattice⟩ else ⟨r.law, true, choice⟩

theorem atRoot?_back (hlaw : r.law.any Law.isReversible = true) (h : r.atRoot? sub = some new)
    (choice : Option Lattice) : (r.back sub choice).atRoot? new = some sub := by
  obtain ⟨law, leftToRight, choice⟩ := r
  cases law with
  | none => simp at hlaw
  | some law =>
    cases leftToRight with
    | true => exact Law.rightToLeft?_of_leftToRight?_eq_some hlaw h
    | false => exact Law.leftToRight?_of_rightToLeft?_eq_some h

theorem leads_replaceAt (hsub : Occurs sub p pos) (hnew : r.atRoot? sub = some new) :
    r.Leads pos p (p.replaceAt pos new) := by
  constructor
  . apply List.count_eq_one_of_mem
    . exact nodup_matchPositions r p
    . exact mem_matchPositions_iff.mpr ⟨sub, new, hsub, hnew⟩
  . intro n hn
    exact atNth_eq_replaceAt hn hsub hnew

theorem leads_of_replaceAt (hsub : Occurs sub p pos) (hback : r.atRoot? new = some sub) :
    r.Leads pos (p.replaceAt pos new) p := by
  have hleads := leads_replaceAt (hsub.replaceAt new) hback
  rw [hsub.replaceAt_replaceAt, hsub.replaceAt_self] at hleads
  exact hleads

theorem back_leads (r : Reading) (hlaw : r.law.any Law.isReversible = true) (p : Formula) (n : Nat)
    (hn : n < r.matchCount p) :
    ∃ pos sub, (r.matchPositions p)[n]? = some pos ∧ p.at? pos = some sub
      ∧ ∀ choice, (r.back sub choice).Leads pos (r.atNth n p) p := by
  obtain ⟨pos, sub, new, hpos, hsub, hnew, heq⟩ := exists_of_lt_matchCount hn
  refine ⟨pos, sub, hpos, Formula.at?_eq_some_iff.mpr hsub, ?_⟩
  intro choice
  rw [heq]
  exact leads_of_replaceAt hsub (atRoot?_back hlaw hnew choice)

theorem back_doubleNegation_leads :
    let r : Reading := ofLaw .doubleNegation
    let p : Formula := .conj (.var "P") (.neg (.neg (.var "Q")))
    0 < r.matchCount p
      ∧ ∃ pos sub, (r.matchPositions p)[0]? = some pos ∧ p.at? pos = some sub
        ∧ ∀ choice, (r.back sub choice).Leads pos (r.atNth 0 p) p := by
  intro r p
  have hn : 0 < r.matchCount p := by decide
  exact ⟨hn, back_leads r (by decide) p 0 hn⟩

end Reading

end ProofDesk
