import ProofDesk.Formula.Basic

/-!
This module contains the words and number codes by which sides and connectives are stored.
-/

namespace ProofDesk

namespace Side

def all : List Side :=
  [left, right]

def key : Side → String
  | left => "Left"
  | right => "Right"

def code : Side → Nat
  | left => 1
  | right => 2

def ofCode? : Nat → Option Side
  | 1 => some left
  | 2 => some right
  | _ => none

end Side

namespace Lattice

def all : List Lattice :=
  [and, or]

def key : Lattice → String
  | and => "And"
  | or => "Or"

def code : Lattice → Nat
  | and => 1
  | or => 2

def ofCode? : Nat → Option Lattice
  | 1 => some and
  | 2 => some or
  | _ => none

end Lattice

namespace Connective

def all : List Connective :=
  [lattice .and, lattice .or, implies]

def key : Connective → String
  | lattice l => l.key
  | implies => "Implies"

end Connective

end ProofDesk
