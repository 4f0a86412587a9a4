import ProofDesk.Json.Decode
import ProofDesk.Label

/-!
This module contains the form that the edits of derivations and of chains have in common: a tag, the
line that is edited, and further fields. From it come the JSON form of an edit and its description
in messages.
-/

namespace ProofDesk

inductive EditValue where
  | nat (n : Nat)
  | flag (b : Bool)
  | word (word : Option String)
  | number (n : Option Nat)
  | label (label : Option Label)
  deriving DecidableEq, Repr

structure EditRecord where
  tag : String
  line : Nat
  fields : List (String × EditValue)
  deriving DecidableEq, Repr

namespace EditValue

def toJson : EditValue → Json
  | nat n => .nat n
  | flag b => .bool b
  | word w => .orNull .str w
  | number n => .orNull .nat n
  | label l => .orNull (fun l => .str l.text) l

def describeOption (f : α → String) : Option α → String
  | some a => "Some(" ++ f a ++ ")"
  | none => "None"

def describe : EditValue → String
  | nat n => toString n
  | flag b => if b then "true" else "false"
  | word w => describeOption id w
  | number n => describeOption toString n
  | label l =>
    describeOption (fun l => "Label([" ++ ", ".intercalate (l.parts.map toString) ++ "])") l

end EditValue

namespace EditRecord

def allFields (r : EditRecord) : List (String × EditValue) :=
  ("line", .nat r.line) :: r.fields

def toJson (r : EditRecord) : Json :=
  .obj (("type", .str r.tag) :: r.allFields.map fun (name, value) => (name, value.toJson))

def title (tag : String) : String :=
  String.ofList (go true tag.toList)
where
  go (capital : Bool) : List Char → List Char
    | [] => []
    | c :: cs =>
      if c == '_' then go true cs
      else (if capital then c.toUpper else c) :: go false cs

def describe (r : EditRecord) : String :=
  title r.tag ++ " \x7b "
    ++ ", ".intercalate (r.allFields.map fun (name, value) => name ++ ": " ++ value.describe)
    ++ " \x7d"

end EditRecord

/--
An edit in JSON, with its tag taken off. As an object it has a field `type`; as an array it starts
with its tag.
-/
structure TaggedJson where
  tag : String
  body : Json

namespace TaggedJson

def maxDepth : Nat := 127

def ofJson? (json : Json) : Option TaggedJson :=
  if json.isMeaningful then
    match json with
    | .obj fields =>
      match fields.filter (·.1 == "type") with
      | [(_, .str tag)] => some ⟨tag, .obj (fields.filter (·.1 != "type"))⟩
      | _ => none
    | .arr (.str tag :: items) => some ⟨tag, .arr items⟩
    | _ => none
  else
    none

def fields? (t : TaggedJson) (names : List String) : Option (Nat × (String → Option Json)) :=
  if isWhole then do
    let field ← t.body.record? ("line" :: names)
    let line ← Json.required? Json.nat? (field "line")
    return (line, field)
  else
    none
where
  isWhole : Bool :=
    match t.body with
    | .arr items => items.length == names.length + 1
    | _ => true

def isNothing : Json → Bool
  | .null => true
  | .obj [] => true
  | _ => false

def choice? (all : List α) (key : α → String) (field : Option Json) : Option (Option α) :=
  Json.defaulted? (Json.nullable? (Json.member? all key isNothing)) none field

def number? (field : Option Json) : Option (Option Nat) :=
  Json.defaulted? (Json.nullable? Json.nat?) none field

def label? (field : Option Json) : Option (Option Label) :=
  Json.defaulted? (Json.nullable? fun json => json.str?.bind Label.ofText?) none field

end TaggedJson

end ProofDesk
