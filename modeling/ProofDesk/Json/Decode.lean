import ProofDesk.Json.Basic

/-!
This module contains the decoding of JSON values into data: numbers within a range, members of an
enumeration, and records, which may be written as objects or as arrays.
-/

namespace ProofDesk.Json

def bool? : Json → Option Bool
  | .bool b => some b
  | _ => none

def str? : Json → Option String
  | .str s => some s
  | _ => none

def nat? : Json → Option Nat
  | .int n => if 0 ≤ n then some n.toNat else none
  | _ => none

def int? : Json → Option Int
  | .int n => if n < halfWordSize then some n else none
  | _ => none

def list? (decode : Json → Option α) : Json → Option (List α)
  | .arr items => items.mapM decode
  | _ => none

def nullable? (decode : Json → Option α) : Json → Option (Option α)
  | .null => some none
  | json => (decode json).map some

def member? (all : List α) (key : α → String) (isNothing : Json → Bool) : Json → Option α
  | .str s => all.find? fun a => key a == s
  | .obj [(s, value)] => if isNothing value then all.find? fun a => key a == s else none
  | _ => none

def isNull : Json → Bool
  | .null => true
  | _ => false

/--
The fields of a record by name. An object may have further fields, but none of the named ones
twice. An array holds the first fields in the order of their names.
-/
def record? (names : List String) : Json → Option (String → Option Json)
  | .obj fields =>
    if names.all fun name => fields.countP (·.1 == name) ≤ 1 then
      some fun name => fields.lookup name
    else
      none
  | .arr items =>
    if items.length ≤ names.length then some fun name => (names.zip items).lookup name else none
  | _ => none

def required? (decode : Json → Option α) (field : Option Json) : Option α :=
  field.bind decode

def defaulted? (decode : Json → Option α) (default : α) (field : Option Json) : Option α :=
  match field with
  | none => some default
  | some json => decode json

mutual

def isMeaningful : Json → Bool
  | .arr items => allMeaningful items
  | .obj fields => allFieldsMeaningful fields
  | .meaningless => false
  | _ => true

def allMeaningful : List Json → Bool
  | [] => true
  | item :: items => item.isMeaningful && allMeaningful items

def allFieldsMeaningful : List (String × Json) → Bool
  | [] => true
  | (_, value) :: fields => value.isMeaningful && allFieldsMeaningful fields

end

mutual

def depth : Json → Nat
  | .arr items => depthOfItems items + 1
  | .obj fields => depthOfFields fields + 1
  | _ => 0

def depthOfItems : List Json → Nat
  | [] => 0
  | item :: items => max item.depth (depthOfItems items)

def depthOfFields : List (String × Json) → Nat
  | [] => 0
  | (_, value) :: fields => max value.depth (depthOfFields fields)

end

end ProofDesk.Json
