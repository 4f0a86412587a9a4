import ProofDesk.Direction
import ProofDesk.Formula.Reader
import ProofDesk.Json.Decode
import ProofDesk.Json.Reader

/-!
This module contains the settings that fill in what a stored proof leaves open.
-/

namespace ProofDesk

structure Settings where
  start : String
  goal : String
  goalBackward : Bool
  deriving DecidableEq, Repr

namespace Settings

def standard : Settings where
  start := "P implies Q implies R"
  goal := "Q implies P implies R"
  goalBackward := true

def goalDirection (s : Settings) : Direction :=
  .ofForward (!s.goalBackward)

def ofJson? (json : Json) : Option Settings := do
  let field ← json.record? ["default_start", "default_end", "goal_direction_backward"]
  return {
    start := ← Json.defaulted? Json.str? standard.start (field "default_start")
    goal := ← Json.defaulted? Json.str? standard.goal (field "default_end")
    goalBackward :=
      ← Json.defaulted? Json.bool? standard.goalBackward (field "goal_direction_backward") }

def ofText? (text : String) : Option Settings :=
  (Json.ofText? text).bind ofJson?

def formulas (s : Settings) : Except SyntaxError (Formula × Formula) := do
  let start ← Formula.ofText s.start
  let goal ← Formula.ofText s.goal
  return (start, goal)

end Settings

end ProofDesk
