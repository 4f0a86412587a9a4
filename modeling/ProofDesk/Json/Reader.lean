import ProofDesk.Json.Decimal

/-!
This module contains the reader of JSON text. It follows the grammar strictly: no leading zeros, no
trailing commas, no control characters in strings, nothing but blanks around the value.
-/

namespace ProofDesk.Json

namespace Reader

def isBlank (c : Char) : Bool :=
  c == ' ' || c == '\t' || c == '\r' || c == '\n'

def skipBlanks (cs : List Char) : List Char :=
  cs.dropWhile isBlank

def hexValue? (c : Char) : Option Nat :=
  if c.isDigit then some (c.toNat - '0'.toNat)
  else if 'a' ≤ c && c ≤ 'f' then some (c.toNat - 'a'.toNat + 10)
  else if 'A' ≤ c && c ≤ 'F' then some (c.toNat - 'A'.toNat + 10)
  else none

def hexNumber? (digits : List Char) : Option Nat :=
  digits.foldlM (fun n c => (hexValue? c).map (16 * n + ·)) 0

def escape? : Char → Option Char
  | '"' => some '"'
  | '\\' => some '\\'
  | '/' => some '/'
  | 'b' => some '\x08'
  | 'f' => some '\x0c'
  | 'n' => some '\n'
  | 'r' => some '\r'
  | 't' => some '\t'
  | _ => none

def codePoints : List Char → Option (List Nat × List Char)
  | [] => none
  | '"' :: rest => some ([], rest)
  | '\\' :: 'u' :: a :: b :: c :: d :: rest =>
    match hexNumber? [a, b, c, d], codePoints rest with
    | some n, some (points, rest) => some (n :: points, rest)
    | _, _ => none
  | '\\' :: e :: rest =>
    match escape? e, codePoints rest with
    | some c, some (points, rest) => some (c.toNat :: points, rest)
    | _, _ => none
  | c :: rest =>
    if c == '\\' || c.toNat < 0x20 then none
    else (codePoints rest).map fun (points, rest) => (c.toNat :: points, rest)

def isHighSurrogate (n : Nat) : Bool :=
  0xD800 ≤ n && n ≤ 0xDBFF

def isLowSurrogate (n : Nat) : Bool :=
  0xDC00 ≤ n && n ≤ 0xDFFF

def characters? : List Nat → Option (List Char)
  | [] => some []
  | high :: low :: rest =>
    if isHighSurrogate high && isLowSurrogate low then
      (characters? rest).map (Char.ofNat (0x10000 + (high - 0xD800) * 0x400 + (low - 0xDC00)) :: ·)
    else if isHighSurrogate high || isLowSurrogate high then none
    else (characters? (low :: rest)).map (Char.ofNat high :: ·)
  | [n] => if isHighSurrogate n || isLowSurrogate n then none else some [Char.ofNat n]

def string (cs : List Char) : Option (Option String × List Char) :=
  (codePoints cs).map fun (points, rest) => ((characters? points).map String.ofList, rest)

def digitsValue (digits : List Char) : Nat :=
  digits.foldl (fun n c => 10 * n + Decimal.digitValue c) 0

def number (negative : Bool) (whole fraction : List Char) (exponent : Option Int)
    (literal : String) : Json :=
  let isPlain := fraction.isEmpty && exponent.isNone
  let n := digitsValue whole
  if isPlain && !negative && n < wordSize then .int n
  else if isPlain && negative && 0 < n && n ≤ halfWordSize then .int (-n)
  else if (Decimal.ofDigits whole fraction (exponent.getD 0)).isFinite then .real literal
  else .meaningless

def wholePart (cs : List Char) : Option (List Char × List Char) :=
  match cs with
  | '0' :: rest => if (rest.head?).any Char.isDigit then none else some (['0'], rest)
  | _ => nonempty (cs.takeWhile Char.isDigit) (cs.dropWhile Char.isDigit)
where
  nonempty (digits rest : List Char) : Option (List Char × List Char) :=
    if digits.isEmpty then none else some (digits, rest)

def fractionPart (cs : List Char) : Option (List Char × List Char) :=
  match cs with
  | '.' :: rest => wholePart.nonempty (rest.takeWhile Char.isDigit) (rest.dropWhile Char.isDigit)
  | _ => some ([], cs)

def exponentPart (cs : List Char) : Option (Option Int × List Char) :=
  match cs with
  | 'e' :: rest => signed rest
  | 'E' :: rest => signed rest
  | _ => some (none, cs)
where
  signed (cs : List Char) : Option (Option Int × List Char) :=
    match cs with
    | '+' :: rest => digits rest 1
    | '-' :: rest => digits rest (-1)
    | _ => digits cs 1
  digits (cs : List Char) (sign : Int) : Option (Option Int × List Char) :=
    (wholePart.nonempty (cs.takeWhile Char.isDigit) (cs.dropWhile Char.isDigit)).map
      fun (digits, rest) => (some (sign * digitsValue digits), rest)

def readNumber (cs : List Char) : Option (Json × List Char) := do
  let (negative, unsigned) :=
    match cs with
    | '-' :: rest => (true, rest)
    | _ => (false, cs)
  let (whole, rest) ← wholePart unsigned
  let (fraction, rest) ← fractionPart rest
  let (exponent, rest) ← exponentPart rest
  let literal := String.ofList (cs.take (cs.length - rest.length))
  return (number negative whole fraction exponent literal, rest)

def object (fields : List (Option String × Json)) : Json :=
  match fields.mapM fun (key, value) => key.map (·, value) with
  | some fields => .obj fields
  | none => .meaningless

mutual

def value : Nat → List Char → Option (Json × List Char)
  | 0, _ => none
  | fuel + 1, cs =>
    match skipBlanks cs with
    | 'n' :: 'u' :: 'l' :: 'l' :: rest => some (.null, rest)
    | 't' :: 'r' :: 'u' :: 'e' :: rest => some (.bool true, rest)
    | 'f' :: 'a' :: 'l' :: 's' :: 'e' :: rest => some (.bool false, rest)
    | '"' :: rest =>
      (string rest).map fun (text, rest) => (text.elim .meaningless .str, rest)
    | '[' :: rest =>
      match skipBlanks rest with
      | ']' :: rest => some (.arr [], rest)
      | rest => (items fuel rest).map fun (items, rest) => (.arr items, rest)
    | '\x7b' :: rest =>
      match skipBlanks rest with
      | '\x7d' :: rest => some (.obj [], rest)
      | rest => (fields fuel rest).map fun (fields, rest) => (object fields, rest)
    | rest => readNumber rest

def items : Nat → List Char → Option (List Json × List Char)
  | 0, _ => none
  | fuel + 1, cs =>
    match value fuel cs with
    | none => none
    | some (item, rest) =>
      match skipBlanks rest with
      | ']' :: rest => some ([item], rest)
      | ',' :: rest => (items fuel rest).map fun (items, rest) => (item :: items, rest)
      | _ => none

def fields : Nat → List Char → Option (List (Option String × Json) × List Char)
  | 0, _ => none
  | fuel + 1, cs =>
    match skipBlanks cs with
    | '"' :: rest =>
      match string rest with
      | none => none
      | some (key, rest) =>
        match skipBlanks rest with
        | ':' :: rest =>
          match value fuel rest with
          | none => none
          | some (item, rest) =>
            match skipBlanks rest with
            | '\x7d' :: rest => some ([(key, item)], rest)
            | ',' :: rest =>
              (fields fuel rest).map fun (fields, rest) => ((key, item) :: fields, rest)
            | _ => none
        | _ => none
    | _ => none

end

end Reader

def ofText? (text : String) : Option Json :=
  let cs := text.toList
  match Reader.value (2 * cs.length + 2) cs with
  | some (json, rest) => if (Reader.skipBlanks rest).isEmpty then some json else none
  | none => none

end ProofDesk.Json
