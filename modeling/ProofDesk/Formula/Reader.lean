import ProofDesk.Formula.Token
import ProofDesk.Text.Quoted

/-!
This module contains the reader of formula text. From loosest to tightest the connectives are
`implies` (which groups to the right), `or`, `and` (both to the left) and `not`. The words `T` and
`F` are the constants.

The readers work on lexemes and return what they did not consume. A connective whose right operand
cannot be read is left in place, together with everything after it.
-/

namespace ProofDesk

inductive SyntaxFault where
  | endOfText
  | unexpected (offset : Nat)
  deriving DecidableEq, Repr

structure SyntaxError where
  text : String
  fault : SyntaxFault
  deriving DecidableEq, Repr

def SyntaxFault.message : SyntaxFault → String
  | endOfText => "unexpected end of input"
  | unexpected offset => s!"unexpected input at offset {offset}"

def SyntaxError.message (e : SyntaxError) : String :=
  s!"no valid proposition in {Text.quoted e.text}: {e.fault.message}"

namespace Formula

def ofWord (name : String) : Formula :=
  if name = "T" then .const true
  else if name = "F" then .const false
  else .var name

namespace Reader

abbrev TokenReader := List Lexeme → Option (Formula × List Lexeme)

def operand (inner : TokenReader) : TokenReader
  | ⟨.not, _⟩ :: ts =>
    match operand inner ts with
    | some (p, rest) => some (.neg p, rest)
    | none => none
  | ⟨.leftParen, _⟩ :: ts =>
    match inner ts with
    | some (p, ⟨.rightParen, _⟩ :: rest) => some (p, rest)
    | _ => none
  | ⟨.word name, _⟩ :: ts => some (.ofWord name, ts)
  | _ => none

def extend (l : Lattice) (sub : TokenReader) : Nat → Formula → List Lexeme → Formula × List Lexeme
  | 0, p, ts => (p, ts)
  | fuel + 1, p, ts =>
    match ts with
    | ⟨.connective (.lattice l'), _⟩ :: rest =>
      if l' = l then
        match sub rest with
        | some (q, rest) => extend l sub fuel (.latt l p q) rest
        | none => (p, ts)
      else
        (p, ts)
    | _ => (p, ts)

def joined (l : Lattice) (sub : TokenReader) : TokenReader := fun ts =>
  match sub ts with
  | some (p, rest) => some (extend l sub rest.length p rest)
  | none => none

def disjunction (inner : TokenReader) : TokenReader :=
  joined .or (joined .and (operand inner))

/--
A whole formula. `depth` bounds the nesting of parentheses and of right operands of `implies`.
-/
def implication : Nat → TokenReader
  | 0, _ => none
  | depth + 1, ts =>
    match disjunction (implication depth) ts with
    | some (p, ⟨.connective .implies, offset⟩ :: rest) =>
      match implication depth rest with
      | some (q, rest) => some (.imp p q, rest)
      | none => some (p, ⟨.connective .implies, offset⟩ :: rest)
    | other => other

end Reader

def faultAt : List Lexeme → SyntaxFault
  | [] => .endOfText
  | t :: _ => .unexpected t.offset

def ofLexemes (ts : List Lexeme) : Except SyntaxFault Formula :=
  match Reader.implication (ts.length + 1) ts with
  | some (p, []) => .ok p
  | some (_, rest) => .error (faultAt rest)
  | none => .error (faultAt ts)

def ofText (text : String) : Except SyntaxError Formula :=
  match ofLexemes (Token.scan text.toList) with
  | .ok p => .ok p
  | .error fault => .error ⟨text, fault⟩

end Formula

end ProofDesk
