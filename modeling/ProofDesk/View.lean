import ProofDesk.Formula.Json

/-!
This module contains what a display needs to know about a line of a proof.
-/

namespace ProofDesk

structure LineView where
  label : Option String
  depth : Nat
  formula : Marked
  ruleName : Option String
  direction : Direction
  isComplete : Bool
  isCorrect : Bool
  isEditing : Bool
  arguments : List (Option String)
  choices : List String
  needsVersion : Bool
  matchCount : Option Nat
  isDeletable : Bool
  isEditable : Bool
  deriving DecidableEq, Repr

namespace LineView

def isError (v : LineView) : Bool :=
  v.isComplete && !v.isCorrect

def isCollapsed (v : LineView) : Bool :=
  v.isCorrect && !v.isEditing

def toJson (v : LineView) : Json :=
  .obj [("label", .orNull .str v.label), ("depth", .nat v.depth), ("proposition", v.formula.toJson),
    ("ruleName", .orNull .str v.ruleName), ("forward", .bool v.direction.isForward),
    ("complete", .bool v.isComplete), ("correct", .bool v.isCorrect), ("error", .bool v.isError),
    ("collapsed", .bool v.isCollapsed),
    ("arguments", .arr (v.arguments.map (Json.orNull Json.str))),
    ("argumentChoices", .arr (v.choices.map Json.str)), ("hasVersion", .bool v.needsVersion),
    ("matchCount", .orNull .nat v.matchCount), ("deletable", .bool v.isDeletable),
    ("editable", .bool v.isEditable)]

end LineView

end ProofDesk
