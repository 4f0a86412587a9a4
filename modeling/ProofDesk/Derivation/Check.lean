import ProofDesk.Derivation.Basic

/-!
This module contains the check of a derivation, line by line.
-/

namespace ProofDesk.Derivation

def cited (d : Derivation) : List (Option Label) → Except Fault (Option (List Formula))
  | [] => .ok (some [])
  | none :: _ => .ok none
  | some label :: arguments => do
    let line ← d.lineAt label
    let formulas ← d.cited arguments
    return formulas.map (line.formula :: ·)

def holdsGoals (d : Derivation) (i : Nat) : List Formula → List (Option Label) → Except Fault Bool
  | goal :: goals, some label :: arguments => do
    let line ← d.lineAt label
    if line.formula = goal then d.holdsGoals i goals arguments
    else .error (.argumentMismatch i label goal line.formula)
  | _ :: _, none :: _ => .ok false
  | _, _ => .ok true

def liftStep : Except StepError α → Except Fault α
  | .ok a => .ok a
  | .error e => .error (.step e)

def citesVisible (row : Row) : Bool :=
  row.line.arguments.all fun arg => arg.all (·.visibleAt row.label)

def concludes (line : Line) (premises : List Formula) : Except Fault Bool :=
  if line.step.fits premises then
    (liftStep (line.step.conclude premises)).map (· == line.formula)
  else
    .ok false

def checkForward (d : Derivation) (row : Row) : Except Fault Bool :=
  if citesVisible row then do
    match ← d.cited row.line.arguments with
    | some premises => concludes row.line premises
    | none => .ok false
  else
    .ok false

def checkBackward (d : Derivation) (i : Nat) (line : Line) : Except Fault Bool :=
  if line.step.fits [line.formula] then do
    let goals ← liftStep (line.step.reduce [line.formula])
    if goals.length = line.arguments.length then d.holdsGoals i goals line.arguments
    else .error (.argumentCount i goals.length line.arguments.length)
  else
    .ok false

def isCorrect (d : Derivation) (i : Nat) : Except Fault Bool := do
  let row ← d.row i
  if row.line.step.isComplete then
    match row.line.step.direction with
    | .forward => d.checkForward row
    | .backward => d.checkBackward i row.line
  else
    .ok false

def isSolved (d : Derivation) : Except Fault Bool :=
  go (List.range d.size)
where
  go : List Nat → Except Fault Bool
    | [] => .ok true
    | i :: is => do
      let correct ← d.isCorrect i
      if correct then go is else .ok false

end ProofDesk.Derivation
