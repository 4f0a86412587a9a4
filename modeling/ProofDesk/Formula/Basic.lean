/-!
This module contains propositional formulas: constants, variables, negation and three binary
connectives, together with their truth value under an assignment of the variables.
-/

namespace ProofDesk

inductive Lattice where
  | and
  | or
  deriving DecidableEq, Repr, Inhabited

namespace Lattice

def dual : Lattice → Lattice
  | and => or
  | or => and

def unit : Lattice → Bool
  | and => true
  | or => false

end Lattice

inductive Connective where
  | lattice (l : Lattice)
  | implies
  deriving DecidableEq, Repr, Inhabited

namespace Connective

def rank : Connective → Nat
  | lattice .and => 2
  | lattice .or => 3
  | implies => 4

def keyword : Connective → String
  | lattice .and => "and"
  | lattice .or => "or"
  | implies => "implies"

def symbol : Connective → String
  | lattice .and => "⋀"
  | lattice .or => "⋁"
  | implies => "→"

def eval : Connective → Bool → Bool → Bool
  | lattice .and, a, b => a && b
  | lattice .or, a, b => a || b
  | implies, a, b => !a || b

end Connective

inductive Side where
  | left
  | right
  deriving DecidableEq, Repr, Inhabited

inductive Formula where
  | const (value : Bool)
  | var (name : String)
  | neg (inner : Formula)
  | bin (c : Connective) (left right : Formula)
  deriving DecidableEq, Repr, Inhabited

namespace Formula

@[match_pattern]
abbrev latt (l : Lattice) (left right : Formula) : Formula :=
  .bin (.lattice l) left right

@[match_pattern]
abbrev conj (left right : Formula) : Formula :=
  .bin (.lattice .and) left right

@[match_pattern]
abbrev disj (left right : Formula) : Formula :=
  .bin (.lattice .or) left right

@[match_pattern]
abbrev imp (left right : Formula) : Formula :=
  .bin .implies left right

def eval (assign : String → Bool) : Formula → Bool
  | const value => value
  | var name => assign name
  | neg inner => !inner.eval assign
  | bin c left right => c.eval (left.eval assign) (right.eval assign)

def rank : Formula → Nat
  | const _ => 0
  | var _ => 0
  | neg _ => 1
  | bin c _ _ => c.rank

def isAtomic (p : Formula) : Bool :=
  p.rank == 0

def connective? : Formula → Option Connective
  | bin c _ _ => some c
  | _ => none

def negated? : Formula → Option Formula
  | neg inner => some inner
  | _ => none

def children : Formula → List Formula
  | const _ => []
  | var _ => []
  | neg inner => [inner]
  | bin _ left right => [left, right]

def size : Formula → Nat
  | const _ => 1
  | var _ => 1
  | neg inner => 1 + inner.size
  | bin _ left right => 1 + left.size + right.size

end Formula

end ProofDesk
