import ProofDesk.Formula.Basic

/-!
This module contains the printer of formulas, with keywords (which reads back) or with symbols (for
display), and with no more parentheses than reading back needs.
-/

namespace ProofDesk

inductive Style where
  | keywords
  | symbols
  deriving DecidableEq, Repr

namespace Style

def negation : Style → List Char
  | keywords => ['n', 'o', 't', ' ']
  | symbols => ['¬']

def connective : Style → Connective → List Char
  | keywords, c => c.keyword.toList
  | symbols, c => c.symbol.toList

end Style

namespace Formula

/--
Whether an operand of `c` needs parentheses. A looser operand does; at equal rank it is the operand
on the side to which the connective does not group.
-/
def wraps (c : Connective) (side : Side) (child : Formula) : Bool :=
  if child.rank = c.rank then
    match c with
    | .lattice _ => side == .right
    | .implies => side == .left
  else
    c.rank < child.rank

def wrapsNegated (inner : Formula) : Bool :=
  1 < inner.rank

def parens (wrap : Bool) (text : List Char) : List Char :=
  if wrap then '(' :: text ++ [')'] else text

def write (style : Style) : Formula → List Char
  | const true => ['T']
  | const false => ['F']
  | var name => name.toList
  | neg inner => style.negation ++ parens (wrapsNegated inner) (inner.write style)
  | bin c left right =>
    parens (wraps c .left left) (left.write style)
      ++ ' ' :: style.connective c
      ++ ' ' :: parens (wraps c .right right) (right.write style)

def keywordText (p : Formula) : String :=
  String.ofList (p.write .keywords)

def symbolText (p : Formula) : String :=
  String.ofList (p.write .symbols)

instance : ToString Formula where
  toString := symbolText

end Formula

end ProofDesk
