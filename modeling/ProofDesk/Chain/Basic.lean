import ProofDesk.Fault
import ProofDesk.Stamp

/-!
This module contains equivalence chains: a start formula followed by links, each of which is
obtained from the formula above it by a law (forward) or gives the formula above it by a law
(backward).
-/

namespace ProofDesk

structure Link where
  formula : Formula
  reading : Reading
  -- The only match that the law is used on; without it, that is every outermost one.
  chosen : Option Nat
  direction : Direction
  editing : Bool
  stamp : Stamp
  source : Option Stamp
  deriving DecidableEq, Repr

namespace Link

def new (formula : Formula) (stamp : Stamp) (direction : Direction) : Link where
  formula
  reading := .unset
  chosen := none
  direction
  editing := false
  stamp
  source := none

def subject (l : Link) (above : Formula) : Formula :=
  match l.direction with
  | .forward => above
  | .backward => l.formula

def matchCount (l : Link) (above : Formula) : Nat :=
  if l.reading.isComplete then l.reading.matchCount (l.subject above) else 0

def isApplicable (l : Link) (above : Formula) : Bool :=
  l.reading.isComplete && l.reading.applies l.chosen (l.subject above)

def result? (l : Link) (above : Formula) : Option Formula :=
  if l.isApplicable above then some (l.reading.atChosen l.chosen (l.subject above))
  else none

def target (l : Link) (above : Formula) : Formula :=
  match l.direction with
  | .forward => l.formula
  | .backward => above

def isCorrect (l : Link) (above : Formula) : Bool :=
  l.result? above == some (l.target above)

end Link

structure Chain where
  start : Formula
  startStamp : Stamp
  goal : Formula
  links : List Link
  stamp : Stamp
  deriving DecidableEq, Repr

namespace Chain

def begin (start goal : Formula) : Chain where
  start
  startStamp := ⟨0⟩
  goal
  links := [.new goal ⟨1⟩ .forward]
  stamp := ⟨2⟩

def size (c : Chain) : Nat :=
  c.links.length

def link (c : Chain) (i : Nat) : Except Fault Link :=
  match c.links[i]? with
  | some link => .ok link
  | none => .error (.noLine i)

def above? (c : Chain) : Nat → Option (Formula × Stamp)
  | 0 => some (c.start, c.startStamp)
  | i + 1 => c.links[i]?.map fun link => (link.formula, link.stamp)

def above (c : Chain) (i : Nat) : Except Fault (Formula × Stamp) := do
  let _ ← c.link i
  match c.above? i with
  | some found => .ok found
  | none => .error (.noLine i)

def isCorrect (c : Chain) (i : Nat) : Except Fault Bool := do
  let link ← c.link i
  let (formula, _) ← c.above i
  return link.isCorrect formula

def allCorrect (above : Formula) : List Link → Bool
  | [] => true
  | link :: links => link.isCorrect above && allCorrect link.formula links

def isSolved (c : Chain) : Bool :=
  c.links.getLast?.any (·.formula == c.goal) && allCorrect c.start c.links

end Chain

end ProofDesk
