/-!
This module contains the two directions in which a step of a proof can be read.
-/

namespace ProofDesk

inductive Direction where
  | forward
  | backward
  deriving DecidableEq, Repr, Inhabited

namespace Direction

def ofForward (forward : Bool) : Direction :=
  if forward then .forward else .backward

def isForward : Direction → Bool
  | forward => true
  | backward => false

def flip : Direction → Direction
  | forward => backward
  | backward => forward

def name : Direction → String
  | forward => "forward"
  | backward => "backward"

end Direction

end ProofDesk
