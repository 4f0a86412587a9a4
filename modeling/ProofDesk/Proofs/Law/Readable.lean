import ProofDesk.Proofs.Formula.Printing
import ProofDesk.Proofs.Law.Rewrites

/-!
This module contains the names in what a law makes of a formula. A law brings in constants, but no
variables, and so what it makes of a readable formula is readable.
-/

namespace ProofDesk

namespace Formula

@[grind =]
theorem isReadable_const (b : Bool) : (const b).isReadable = true := by
  rfl

@[grind =]
theorem isReadable_neg (p : Formula) : (neg p).isReadable = p.isReadable := by
  rfl

@[grind =]
theorem isReadable_bin (c : Connective) (p q : Formula) :
    (bin c p q).isReadable = (p.isReadable && q.isReadable) := by
  rfl

end Formula

namespace Law

variable {law : Law} {p q : Formula}

theorem isReadable_of_leftToRight?_eq_some (h : law.leftToRight? p = some q) (hp : p.isReadable) :
    q.isReadable := by
  unfold leftToRight? at h
  split at h
  all_goals grind

theorem isReadable_of_rightToLeft?_eq_some {choice : Option Lattice}
    (h : law.rightToLeft? choice p = some q) (hp : p.isReadable) : q.isReadable := by
  unfold rightToLeft? at h
  split at h
  all_goals grind [Option.map_eq_some_iff]

end Law

theorem Reading.isReadable_of_atRoot?_eq_some {r : Reading} {p q : Formula}
    (h : r.atRoot? p = some q) (hp : p.isReadable) : q.isReadable := by
  unfold atRoot? at h
  split at h
  . simp at h
  . split at h
    . exact Law.isReadable_of_leftToRight?_eq_some h hp
    . exact Law.isReadable_of_rightToLeft?_eq_some h hp

theorem Reading.Rewrites.isReadable {r : Reading} {p q : Formula} (h : r.Rewrites p q)
    (hp : p.isReadable) : q.isReadable := by
  induction h with
  | refl => exact hp
  | root h => exact isReadable_of_atRoot?_eq_some h hp
  | neg _ ih => exact ih hp
  | bin _ _ ihp ihq =>
    rw [Formula.isReadable_bin, Bool.and_eq_true] at hp ⊢
    exact ⟨ihp hp.1, ihq hp.2⟩

end ProofDesk
