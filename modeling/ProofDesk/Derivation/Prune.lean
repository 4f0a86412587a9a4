import ProofDesk.Derivation.Renumber

/-!
This module contains the removal of subproofs whose closing line is no longer a direct proof.
-/

namespace ProofDesk.Derivation

/--
State of a pass over the rows: those kept so far, for each depth the number of rows kept before the
subproof that is open at that depth, and the labels of the rows that were dropped.
-/
structure Pruning where
  kept : List Row
  starts : List Nat
  dropped : List Label

def Pruning.opened (s : Pruning) (n : Nat) : List Nat :=
  s.starts ++ List.replicate (n - s.starts.length) s.kept.length

def Pruning.next (s : Pruning) (row : Row) : Pruning :=
  let starts := (s.opened row.label.depth).take row.label.depth
  match (s.opened row.label.depth)[row.label.depth]? with
  | some start =>
    if row.line.step.rule = some .directProof then
      { s with kept := s.kept ++ [row], starts }
    else
      { kept := s.kept.take start ++ [row]
        starts
        dropped := s.dropped ++ (s.kept.drop start).map Row.label }
  | none => { s with kept := s.kept ++ [row], starts }

def Pruning.after (first : Row) (seen : List Row) : Pruning :=
  seen.foldl Pruning.next ⟨[first], [0], []⟩

def forgetAll (labels : List Label) (row : Row) : Row :=
  labels.foldl (fun row label => row.forget label) row

def prune : List Row → List Row
  | [] => []
  | row :: rows =>
    let s := Pruning.after row rows
    s.kept.map (forgetAll s.dropped)

end ProofDesk.Derivation
