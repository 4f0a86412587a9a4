import ProofDesk.Derivation.Basic

/-!
This module contains the lines that were generated from a formula, directly or through other lines.
-/

namespace ProofDesk.Derivation

/--
The indices of the rows generated in one step from one of the given stamps. A row that is its own
source is not generated from itself.
-/
def generatedFrom (rows : List Row) (stamps : List Stamp) : List Nat :=
  (List.range rows.length).filter fun i =>
    rows[i]?.any fun row =>
      row.line.source.any fun source => stamps.contains source && source != row.line.stamp

def reachedWithin (rows : List Row) (root : Stamp) : Nat → List Nat
  | 0 => []
  | n + 1 =>
    let reached := (reachedWithin rows root n).filterMap fun i => rows[i]?.map (·.line.stamp)
    generatedFrom rows (root :: reached)

def generated (rows : List Row) (root : Stamp) : List Nat :=
  reachedWithin rows root rows.length

end ProofDesk.Derivation
