import ProofDesk.Proofs.Law.Matches

/-!
This module contains what both ways of using a law have in common: the law is used on some
subformulas, none of them inside another, and the rest of the formula stays. What the law keeps at a
root is kept by every such use.
-/

namespace ProofDesk.Reading

inductive Rewrites (r : Reading) : Formula → Formula → Prop where
  | refl (p : Formula) : Rewrites r p p
  | root {p q : Formula} (h : r.atRoot? p = some q) : Rewrites r p q
  | neg {p q : Formula} (h : Rewrites r p q) : Rewrites r (.neg p) (.neg q)
  | bin {c : Connective} {p p' q q' : Formula} (hp : Rewrites r p p') (hq : Rewrites r q q') :
      Rewrites r (.bin c p q) (.bin c p' q')

theorem rewrites_everywhere (r : Reading) (p : Formula) : r.Rewrites p (r.everywhere p) := by
  induction p with
  | const value =>
    unfold everywhere
    split
    . next h => exact .root h
    . exact .refl _
  | var name =>
    unfold everywhere
    split
    . next h => exact .root h
    . exact .refl _
  | neg inner ih =>
    unfold everywhere
    split
    . next h => exact .root h
    . exact .neg ih
  | bin c left right ihl ihr =>
    unfold everywhere
    split
    . next h => exact .root h
    . exact .bin ihl ihr

theorem rewrites_atNth_of_below {r : Reading} {p : Formula}
    (hbelow : ∀ n, r.Rewrites p (r.atNthBelow n p)) (n : Nat) : r.Rewrites p (r.atNth n p) := by
  rw [atNth_eq]
  split
  . next h => exact .root h
  . apply hbelow
  . apply hbelow

theorem rewrites_atNth (r : Reading) (n : Nat) (p : Formula) : r.Rewrites p (r.atNth n p) := by
  induction p generalizing n with
  | const value => exact rewrites_atNth_of_below (fun _ => .refl _) n
  | var name => exact rewrites_atNth_of_below (fun _ => .refl _) n
  | neg inner ih => exact rewrites_atNth_of_below (fun m => .neg (ih m)) n
  | bin c left right ihl ihr =>
    apply rewrites_atNth_of_below
    intro m
    rw [atNthBelow]
    split
    . exact .bin (ihl m) (.refl right)
    . exact .bin (.refl left) (ihr _)

theorem rewrites_atChosen (r : Reading) (chosen : Option Nat) (p : Formula) :
    r.Rewrites p (r.atChosen chosen p) := by
  unfold atChosen
  split
  . apply rewrites_everywhere
  . apply rewrites_atNth

end ProofDesk.Reading
