import ProofDesk.Formula.Choice
import ProofDesk.Formula.Position
import ProofDesk.Formula.Marked
import ProofDesk.Json.Decode

/-!
This module contains the JSON form of formulas, positions and marked texts.
-/

namespace ProofDesk

namespace Formula

def constKey (value : Bool) : String :=
  if value then "True" else "False"

def toJson : Formula → Json
  | const value => .str (constKey value)
  | var name => .obj [("Variable", .str name)]
  | neg inner => .obj [("Negation", inner.toJson)]
  | bin c left right => .obj [("Operator", .arr [.str c.key, left.toJson, right.toJson])]

def ofJson? : Json → Option Formula
  | .obj [("Variable", .str name)] => some (.var name)
  | .obj [("Negation", inner)] => (ofJson? inner).map .neg
  | .obj [("Operator", .arr [c, left, right])] =>
    match Json.member? Connective.all Connective.key Json.isNull c, ofJson? left, ofJson? right with
    | some c, some left, some right => some (.bin c left right)
    | _, _, _ => none
  | json => (Json.member? [true, false] constKey Json.isNull json).map .const

end Formula

def Position.toJson (pos : Position) : Json :=
  .obj (if pos.isEmpty then [] else [("path", .arr (pos.map Json.nat))])

def Span.toJson (s : Span) : Json :=
  .obj [("start", .nat s.start), ("end", .nat s.stop), ("kind", .str s.kind.name)]

def Marked.toJson (m : Marked) : Json :=
  .obj (("text", .str m.text) ::
    if m.spans.isEmpty then [] else [("highlights", .arr (m.spans.map Span.toJson))])

end ProofDesk
