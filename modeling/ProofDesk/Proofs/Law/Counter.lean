import ProofDesk.Proofs.Law.Matches

/-!
This module contains the traversal that finds a match by its index with one counter, a machine word
that is shared by all of its branches and ends it early. It finds the match with this number, up to
what becomes of the counter behind the last word.
-/

namespace ProofDesk

/--
What becomes of a machine word that is counted up behind the last one. A release build starts again
at 0, a build with overflow checks stops without a result.
-/
inductive Overflow where
  | wraps
  | stops
  deriving DecidableEq

namespace Overflow

variable {o : Overflow} {n : UInt64}

end Overflow

namespace Reading

def Fits (o : Overflow) (index seen : UInt64) (count : Nat) : Prop :=
  -- There is nothing to count, or the traversal ends with the index, or the count does not wrap.
  count = 0 ∨ index.toNat + 1 < UInt64.size ∨ (o = .wraps ∧ seen.toNat + count < UInt64.size)

variable {r : Reading} {o : Overflow} {index seen seen' : UInt64} {p q : Formula} {count count' : Nat}

section Step

end Step

section Run

end Run

end Reading

end ProofDesk
