import ProofDesk.Fault
import ProofDesk.Stamp

/-!
This module contains derivations: sequences of labelled lines, in which a subproof is a block of
lines with longer labels.

A line remembers the stamp of the formula it was generated from: backward steps generate the lines
of their goals, and a forward line is its own source. These links decide what an edit may overwrite.
-/

namespace ProofDesk

structure Line where
  formula : Formula
  step : Step
  -- A fixed line cannot be deleted.
  fixed : Bool
  -- Whether rule and direction can be changed.
  editable : Bool
  editing : Bool
  -- The cited lines of a forward step, the generated goals of a backward step.
  arguments : List (Option Label)
  stamp : Stamp
  source : Option Stamp
  deriving DecidableEq, Repr

namespace Line

def new (formula : Formula) (stamp : Stamp) (step : Step) (fixed editable : Bool) : Line where
  formula
  step
  fixed
  editable
  editing := false
  arguments := List.replicate step.arity none
  stamp
  source := none

def isForward (l : Line) : Bool :=
  l.step.direction.isForward

def fitArguments (l : Line) : Line :=
  { l with arguments :=
      l.arguments.take l.step.arity
        ++ List.replicate (l.step.arity - l.arguments.length) none }

def setRule (l : Line) (rule : Option Rule) : Line :=
  fitArguments { l with step := l.step.setRule rule }

def setDirection (l : Line) (direction : Direction) : Line :=
  fitArguments { l with step := { l.step with direction } }

end Line

structure Row where
  label : Label
  line : Line
  deriving DecidableEq, Repr

structure Derivation where
  start : Formula
  goal : Formula
  rows : List Row
  stamp : Stamp
  deriving DecidableEq, Repr

namespace Derivation

def begin (start goal : Formula) (goalDirection : Direction) : Derivation where
  start
  goal
  rows :=
    [⟨⟨[1]⟩, .new start ⟨0⟩ .assumption true false⟩,
      ⟨⟨[2]⟩, .new goal ⟨1⟩ (.unknown goalDirection) true true⟩]
  stamp := ⟨2⟩

def labels (d : Derivation) : List Label :=
  d.rows.map Row.label

def lines (d : Derivation) : List Line :=
  d.rows.map Row.line

def size (d : Derivation) : Nat :=
  d.rows.length

def row (d : Derivation) (i : Nat) : Except Fault Row :=
  match d.rows[i]? with
  | some row => .ok row
  | none => .error (.noLine i)

def indexOf (d : Derivation) (label : Label) : Except Fault Nat :=
  match d.rows.findIdx? (·.label == label) with
  | some i => .ok i
  | none => .error (.noLabel label)

def lineAt (d : Derivation) (label : Label) : Except Fault Line :=
  match d.rows.find? (·.label == label) with
  | some row => .ok row.line
  | none => .error (.noLabel label)

def visibleFrom (d : Derivation) (i : Nat) : List Label :=
  match d.rows[i]? with
  | some row => ((d.rows.take i).map Row.label).filter (·.visibleAt row.label)
  | none => []

end Derivation

end ProofDesk
