import ProofDesk.Formula.Basic

/-!
This module contains the tokens of formula text. Blanks separate tokens and carry no meaning, a
keyword needs no blank after it, and a word takes the longest run of ASCII letters and digits.
-/

namespace ProofDesk

inductive Token where
  | leftParen
  | rightParen
  | not
  | connective (c : Connective)
  | word (name : String)
  | stray
  deriving DecidableEq, Repr

structure Lexeme where
  token : Token
  offset : Nat
  deriving DecidableEq, Repr

namespace Token

def isBlank (c : Char) : Bool :=
  c == ' ' || c == '\t' || c == '\r' || c == '\n'

def head? : List Char → Option (Token × Nat)
  | '(' :: _ => some (.leftParen, 1)
  | ')' :: _ => some (.rightParen, 1)
  | 'n' :: 'o' :: 't' :: _ => some (.not, 3)
  | 'a' :: 'n' :: 'd' :: _ => some (.connective (.lattice .and), 3)
  | 'o' :: 'r' :: _ => some (.connective (.lattice .or), 2)
  | 'i' :: 'm' :: 'p' :: 'l' :: 'i' :: 'e' :: 's' :: _ => some (.connective .implies, 7)
  | c :: cs =>
    if c.isUpper then
      let name := c :: cs.takeWhile Char.isAlphanum
      some (.word (String.ofList name), name.length)
    else
      none
  | [] => none

def scan (text : List Char) : List Lexeme :=
  go 0 0 text
where
  -- `skip` counts the characters that still belong to the last token.
  go (offset skip : Nat) : List Char → List Lexeme
    | [] => []
    | c :: cs =>
      match skip with
      | skip + 1 => go (offset + c.utf8Size) skip cs
      | 0 =>
        if isBlank c then
          go (offset + c.utf8Size) 0 cs
        else
          match head? (c :: cs) with
          | some (token, width) => ⟨token, offset⟩ :: go (offset + c.utf8Size) (width - 1) cs
          | none => [⟨.stray, offset⟩]

end Token

end ProofDesk
