/-!
This module contains the stamps that tell apart the formulas stored in a proof, however often the
same formula occurs. A copy of a line keeps its stamp; a new formula gets a fresh one.
-/

namespace ProofDesk

structure Stamp where
  number : Nat
  deriving DecidableEq, Repr, Inhabited

namespace Stamp

def text (s : Stamp) : String :=
  s!"#{s.number}"

def next (s : Stamp) : Stamp :=
  ⟨s.number + 1⟩

def first (n : Nat) : List Stamp :=
  (List.range n).map Stamp.mk

end Stamp

end ProofDesk
