import ProofDesk.Formula.Reader

/-!
This module contains the two texts that state what is to be proved. Each is read on its own, and the
texts are kept as they were typed.
-/

namespace ProofDesk

inductive Part where
  | start
  | goal
  deriving DecidableEq, Repr

structure Problem where
  start : String
  goal : String
  deriving DecidableEq, Repr

namespace Problem

def empty : Problem :=
  ⟨"", ""⟩

def text (p : Problem) : Part → String
  | .start => p.start
  | .goal => p.goal

def set (p : Problem) (part : Part) (text : String) : Problem :=
  match part with
  | .start => { p with start := text }
  | .goal => { p with goal := text }

def formula? (p : Problem) (part : Part) : Option Formula :=
  (Formula.ofText (p.text part)).toOption

def error? (p : Problem) (part : Part) : Option SyntaxError :=
  if (p.text part).isEmpty then none
  else
    match Formula.ofText (p.text part) with
    | .ok _ => none
    | .error e => some e

def formulas? (p : Problem) : Option (Formula × Formula) := do
  let start ← p.formula? .start
  let goal ← p.formula? .goal
  return (start, goal)

def isReady (p : Problem) : Bool :=
  p.formulas?.isSome

end Problem

end ProofDesk
