import ProofDesk.Formula.Position
import ProofDesk.Law.Basic

/-!
This module contains laws read in one direction, and their use on subformulas: on every outermost
match, or on one match chosen by its number.
-/

namespace ProofDesk

structure Reading where
  law : Option Law
  leftToRight : Bool
  -- The connective to rebuild from right to left, if the law leaves it open.
  lattice : Option Lattice
  deriving DecidableEq, Repr

namespace Reading

def unset : Reading :=
  ⟨none, true, none⟩

def ofLaw (law : Law) : Reading :=
  ⟨some law, true, none⟩

def reversed (law : Law) (lattice : Option Lattice) : Reading :=
  ⟨some law, false, lattice⟩

def needsLattice (r : Reading) : Bool :=
  !r.leftToRight && r.law.any Law.needsLattice

def isComplete (r : Reading) : Bool :=
  r.law.isSome && (!r.needsLattice || r.lattice.isSome)

def name? (r : Reading) : Option String :=
  r.law.map Law.name

def atRoot? (r : Reading) (p : Formula) : Option Formula :=
  match r.law with
  | none => none
  | some law => if r.leftToRight then law.leftToRight? p else law.rightToLeft? r.lattice p

def isMatch (r : Reading) (p : Formula) : Bool :=
  (r.atRoot? p).isSome

def matchesIn (r : Reading) (p : Formula) : List Formula :=
  match p with
  | .const _ => here
  | .var _ => here
  | .neg inner => here ++ r.matchesIn inner
  | .bin _ left right => here ++ (r.matchesIn left ++ r.matchesIn right)
where
  here : List Formula := if r.isMatch p then [p] else []

def matchPositions (r : Reading) (p : Formula) : List Position :=
  p.positions.filter fun pos => (p.at? pos).any r.isMatch

def matchCount (r : Reading) (p : Formula) : Nat :=
  (r.matchesIn p).length

/--
Use the law on every outermost match. Matches inside of another one stay as they are.
-/
def everywhere (r : Reading) (p : Formula) : Formula :=
  match r.atRoot? p with
  | some q => q
  | none =>
    match p with
    | .neg inner => .neg (r.everywhere inner)
    | .bin c left right => .bin c (r.everywhere left) (r.everywhere right)
    | p => p

/--
Use the law on the match with the given number, counted in pre-order from 0. Nothing changes if
there are not as many.
-/
def atNth (r : Reading) (n : Nat) (p : Formula) : Formula :=
  match r.atRoot? p, n with
  | some q, 0 => q
  | found, n =>
    -- The number of the match among those strictly below `p`.
    let n := if found.isSome then n - 1 else n
    match p with
    | .neg inner => .neg (r.atNth n inner)
    | .bin c left right =>
      if n < r.matchCount left then .bin c (r.atNth n left) right
      else .bin c left (r.atNth (n - r.matchCount left) right)
    | p => p

def atChosen (r : Reading) (chosen : Option Nat) (p : Formula) : Formula :=
  match chosen with
  | none => r.everywhere p
  | some n => r.atNth n p

def applies (r : Reading) (chosen : Option Nat) (p : Formula) : Bool :=
  match chosen with
  | none => 0 < r.matchCount p
  | some n => n < r.matchCount p

def chosenPositions (r : Reading) (chosen : Option Nat) (p : Formula) : List Position :=
  if r.isComplete then
    let found :=
      match chosen with
      | none => r.matchPositions p
      | some n => (r.matchPositions p)[n]?.toList
    found.filter fun pos => !pos.isEmpty
  else
    []

end Reading

end ProofDesk
