import ProofDesk.Chain.Edit
import ProofDesk.EditRecord
import ProofDesk.Formula.Choice
import ProofDesk.Json.Reader

/-!
This module contains the JSON form of the edits of chains.
-/

namespace ProofDesk.Chain.Edit

def toRecord (e : Edit) : EditRecord :=
  match e.action with
  | .change (.setLaw law) => ⟨"set_rule", e.line, [("rule", .word (law.map Law.key))]⟩
  | .change (.setLeftToRight b) => ⟨"set_left_to_right", e.line, [("left_to_right", .flag b)]⟩
  | .change (.setLattice l) => ⟨"set_version", e.line, [("version", .word (l.map Lattice.key))]⟩
  | .change (.setChosen n) => ⟨"set_match_index", e.line, [("index", .number n)]⟩
  | .toggleDirection => ⟨"toggle_direction", e.line, []⟩
  | .toggleEditing => ⟨"toggle_editing", e.line, []⟩
  | .delete => ⟨"delete_line", e.line, []⟩

def ofTagged? (t : TaggedJson) : Option Edit :=
  match t.tag with
  | "set_rule" => do
    let (line, field) ← t.fields? ["rule"]
    return ⟨line, .change (.setLaw (← TaggedJson.choice? Law.all Law.key (field "rule")))⟩
  | "set_left_to_right" => do
    let (line, field) ← t.fields? ["left_to_right"]
    let leftToRight ← Json.required? Json.bool? (field "left_to_right")
    return ⟨line, .change (.setLeftToRight leftToRight)⟩
  | "set_version" => do
    let (line, field) ← t.fields? ["version"]
    let lattice ← TaggedJson.choice? Lattice.all Lattice.key (field "version")
    return ⟨line, .change (.setLattice lattice)⟩
  | "set_match_index" => do
    let (line, field) ← t.fields? ["index"]
    return ⟨line, .change (.setChosen (← TaggedJson.number? (field "index")))⟩
  | "toggle_direction" => do
    let (line, _) ← t.fields? []
    return ⟨line, .toggleDirection⟩
  | "toggle_editing" => do
    let (line, _) ← t.fields? []
    return ⟨line, .toggleEditing⟩
  | "delete_line" => do
    let (line, _) ← t.fields? []
    return ⟨line, .delete⟩
  | _ => none

def ofJson? (json : Json) : Option Edit :=
  (TaggedJson.ofJson? json).bind ofTagged?

end ProofDesk.Chain.Edit
