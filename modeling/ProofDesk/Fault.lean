import ProofDesk.Formula.Printer
import ProofDesk.Label
import ProofDesk.Rule.Step

/-!
This module contains the reasons for which an edit of a proof is rejected or a proof cannot be
checked. Lines are named by their index, counted from 0.
-/

namespace ProofDesk

inductive Fault where
  | noLine (line : Nat)
  | noLabel (label : Label)
  | noSlot (line slot : Nat)
  | notVisible (line : Nat) (label : Label)
  | fixed (line : Nat)
  | notEditable (line : Nat)
  | notDeletable (line : Nat)
  | ruleNotOffered (line : Nat) (rule : Rule)
  | derivedArguments (line : Nat)
  | noLaw (line : Nat)
  | argumentCount (line expected actual : Nat)
  | argumentMismatch (line : Nat) (label : Label) (expected found : Formula)
  | step (error : StepError)
  deriving DecidableEq, Repr

def Fault.message : Fault → String
  | noLine line => s!"line {line} does not exist"
  | noLabel label => s!"no line is labeled {label.text}"
  | noSlot line slot => s!"line {line} has no argument slot {slot}"
  | notVisible line label => s!"label {label.text} is not in scope at line {line}"
  | fixed line => s!"line {line} is fixed and cannot be deleted"
  | notEditable line => s!"the rule of line {line} cannot be edited"
  | notDeletable line => s!"line {line} cannot be deleted"
  | ruleNotOffered line rule => s!"{rule.name} is not offered on line {line}"
  | derivedArguments line => s!"arguments of backward line {line} are generated, not chosen"
  | noLaw line => s!"line {line} does not use an equivalence rule"
  | argumentCount line expected actual =>
    s!"line {line} has {actual} arguments but its rule produces {expected}"
  | argumentMismatch line label expected found =>
    s!"argument {label.text} of line {line} holds {found.symbolText}, "
      ++ s!"expected {expected.symbolText}"
  | step error => error.message

end ProofDesk
