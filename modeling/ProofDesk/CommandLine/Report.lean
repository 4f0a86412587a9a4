import ProofDesk.Chain.View
import ProofDesk.Derivation.View
import ProofDesk.Problem
import ProofDesk.Snapshot.Chain
import ProofDesk.Snapshot.Derivation

/-!
This module contains the printed form of problems and proofs.
-/

namespace ProofDesk.CommandLine

def padLeft (width : Nat) (text : String) : String :=
  String.ofList (List.replicate (width - text.length) ' ') ++ text

def padRight (width : Nat) (text : String) : String :=
  text ++ String.ofList (List.replicate (width - text.length) ' ')

def problemLines (problem : Problem) : List String :=
  [line "start" .start, line "end" .goal]
where
  line (name : String) (part : Part) : String :=
    padLeft 5 name ++ ": " ++
      match problem.formula? part, problem.error? part with
      | some p, _ => p.symbolText
      | none, some e => e.message
      | none, none => "(empty)"

def status (v : LineView) : String :=
  if v.isCorrect then "ok" else if v.isError then "ERR" else ".."

def proofLine (v : LineView) : String :=
  let indent := String.ofList (List.replicate (2 * (v.depth - 1)) ' ')
  let arrow := if v.direction.isForward then "↓" else "↑"
  let arguments := v.arguments.map fun arg => arg.getD "_"
  "[" ++ padLeft 3 (status v) ++ "] " ++ indent ++ padRight 8 (v.label.getD "≡") ++ " "
    ++ v.formula.text ++ "  " ++ arrow ++ " " ++ v.ruleName.getD "?"
    ++ if arguments.isEmpty then "" else " (" ++ ", ".intercalate arguments ++ ")"

def closing (isSolved : Bool) (stored : String) : List String :=
  ["", "solved: " ++ (if isSolved then "true" else "false"), stored]

def derivationLines (d : Derivation) : Except Fault (List String) := do
  let views ← d.view
  let isSolved ← d.isSolved
  return views.map proofLine ++ closing isSolved d.encode

def chainLines (c : Chain) : List String :=
  ("      " ++ c.view.start.text) :: c.view.lines.map proofLine ++ closing c.isSolved c.encode

end ProofDesk.CommandLine
