import ProofDesk.Formula.Basic

/-!
This module contains positions of subformulas. A position is the path of child indices from the
root, where `0` selects the left operand or the negated formula and `1` the right operand.
-/

namespace ProofDesk

abbrev Position := List Nat

def Position.text (pos : Position) : String :=
  "[" ++ ",".intercalate (pos.map toString) ++ "]"

namespace Formula

def at? (p : Formula) : Position → Option Formula
  | [] => some p
  | i :: pos =>
    match p.children[i]? with
    | some child => child.at? pos
    | none => none

def positions : Formula → List Position
  | const _ => [[]]
  | var _ => [[]]
  | neg inner => [] :: inner.positions.map (0 :: ·)
  | bin _ left right => [] :: (left.positions.map (0 :: ·) ++ right.positions.map (1 :: ·))

def replaceAt : Formula → Position → Formula → Formula
  | _, [], new => new
  | neg inner, 0 :: pos, new => neg (inner.replaceAt pos new)
  | bin c left right, 0 :: pos, new => bin c (left.replaceAt pos new) right
  | bin c left right, 1 :: pos, new => bin c left (right.replaceAt pos new)
  | p, _, _ => p

end Formula

end ProofDesk
