import ProofDesk.Derivation.Edit
import ProofDesk.EditRecord
import ProofDesk.Formula.Choice
import ProofDesk.Json.Reader

/-!
This module contains the JSON form of the edits of derivations.
-/

namespace ProofDesk.Derivation.Edit

def toRecord (e : Edit) : EditRecord :=
  match e.action with
  | .change (.setRule rule) => ⟨"set_rule", e.line, [("rule", .word (rule.map Rule.key))]⟩
  | .change .toggleDirection => ⟨"toggle_direction", e.line, []⟩
  | .change (.setSide side) => ⟨"set_version", e.line, [("version", .word (side.map Side.key))]⟩
  | .change (.setLaw law) => ⟨"set_equivalence_rule", e.line, [("rule", .word (law.map Law.key))]⟩
  | .change (.setLeftToRight b) => ⟨"set_left_to_right", e.line, [("left_to_right", .flag b)]⟩
  | .change (.setLattice l) =>
    ⟨"set_equivalence_version", e.line, [("version", .word (l.map Lattice.key))]⟩
  | .change (.setChosen n) => ⟨"set_match_index", e.line, [("index", .number n)]⟩
  | .change (.setArgument slot label) =>
    ⟨"set_argument", e.line, [("slot", .nat slot), ("label", .label label)]⟩
  | .toggleEditing => ⟨"toggle_editing", e.line, []⟩
  | .delete => ⟨"delete_line", e.line, []⟩

def ofTagged? (t : TaggedJson) : Option Edit :=
  match t.tag with
  | "set_rule" => do
    let (line, field) ← t.fields? ["rule"]
    return ⟨line, .change (.setRule (← TaggedJson.choice? Rule.all Rule.key (field "rule")))⟩
  | "toggle_direction" => do
    let (line, _) ← t.fields? []
    return ⟨line, .change .toggleDirection⟩
  | "set_version" => do
    let (line, field) ← t.fields? ["version"]
    return ⟨line, .change (.setSide (← TaggedJson.choice? Side.all Side.key (field "version")))⟩
  | "set_equivalence_rule" => do
    let (line, field) ← t.fields? ["rule"]
    return ⟨line, .change (.setLaw (← TaggedJson.choice? Law.all Law.key (field "rule")))⟩
  | "set_left_to_right" => do
    let (line, field) ← t.fields? ["left_to_right"]
    let leftToRight ← Json.required? Json.bool? (field "left_to_right")
    return ⟨line, .change (.setLeftToRight leftToRight)⟩
  | "set_equivalence_version" => do
    let (line, field) ← t.fields? ["version"]
    let lattice ← TaggedJson.choice? Lattice.all Lattice.key (field "version")
    return ⟨line, .change (.setLattice lattice)⟩
  | "set_match_index" => do
    let (line, field) ← t.fields? ["index"]
    return ⟨line, .change (.setChosen (← TaggedJson.number? (field "index")))⟩
  | "set_argument" => do
    let (line, field) ← t.fields? ["slot", "label"]
    let slot ← Json.required? Json.nat? (field "slot")
    return ⟨line, .change (.setArgument slot (← TaggedJson.label? (field "label")))⟩
  | "toggle_editing" => do
    let (line, _) ← t.fields? []
    return ⟨line, .toggleEditing⟩
  | "delete_line" => do
    let (line, _) ← t.fields? []
    return ⟨line, .delete⟩
  | _ => none

def ofJson? (json : Json) : Option Edit :=
  (TaggedJson.ofJson? json).bind ofTagged?

end ProofDesk.Derivation.Edit
