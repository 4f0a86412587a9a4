import ProofDesk.Direction
import ProofDesk.Formula.Position
import ProofDesk.Formula.Printer

/-!
This module contains the display form of a formula in which the subformulas at given positions are
marked by their byte ranges.
-/

namespace ProofDesk

structure Span where
  start : Nat
  stop : Nat
  kind : Direction
  deriving DecidableEq, Repr

structure Marked where
  text : String
  spans : List Span
  deriving DecidableEq, Repr

namespace Formula

def byteLength : List Char → Nat
  | [] => 0
  | c :: text => c.utf8Size + byteLength text

theorem byteLength_append (text text' : List Char) :
    byteLength (text ++ text') = byteLength text + byteLength text' := by
  induction text with
  | nil => simp [byteLength]
  | cons c text ih => simp [byteLength, ih, Nat.add_assoc]

theorem utf8ByteSize_ofList (text : List Char) :
    (String.ofList text).utf8ByteSize = byteLength text := by
  induction text with
  | nil => rfl
  | cons c text ih =>
    rw [← List.singleton_append, String.ofList_append, String.utf8ByteSize_append, ih]
    simp [byteLength]

/--
The spans of the asked positions at or below `here`, for a formula whose display form starts at
byte `start`. Spans of subformulas come first, and a span leaves out the parentheses around it.
-/
def spansFrom (asked : List (Position × Direction)) (here : Position) (start : Nat) :
    Formula → List Span
  | const value => own (const value)
  | var name => own (var name)
  | neg inner =>
    let first := start + byteLength Style.symbols.negation + paren (wrapsNegated inner)
    inner.spansFrom asked (here ++ [0]) first ++ own (neg inner)
  | bin c left right =>
    let before := parens (wraps c .left left) (left.write .symbols)
      ++ ' ' :: Style.symbols.connective c ++ [' ']
    let first := start + paren (wraps c .left left)
    let second := start + byteLength before + paren (wraps c .right right)
    left.spansFrom asked (here ++ [0]) first ++ right.spansFrom asked (here ++ [1]) second
      ++ own (bin c left right)
where
  paren (wrap : Bool) : Nat := if wrap then 1 else 0
  own (p : Formula) : List Span :=
    asked.filterMap fun (pos, kind) =>
      if pos = here then some ⟨start, start + byteLength (p.write .symbols), kind⟩ else none

def marked (p : Formula) (asked : List (Position × Direction)) : Marked :=
  ⟨p.symbolText, p.spansFrom asked [] 0⟩

end Formula

end ProofDesk
