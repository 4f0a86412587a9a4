import ProofDesk.Derivation.Update

/-!
This module contains the edits of a derivation. An edit either gives a new derivation or is
rejected.
-/

namespace ProofDesk.Derivation

inductive Change where
  | setRule (rule : Option Rule)
  | toggleDirection
  | setSide (side : Option Side)
  | setLaw (law : Option Law)
  | setLeftToRight (leftToRight : Bool)
  | setLattice (lattice : Option Lattice)
  | setChosen (chosen : Option Nat)
  | setArgument (slot : Nat) (label : Option Label)
  deriving DecidableEq, Repr

inductive Action where
  | change (change : Change)
  | toggleEditing
  | delete
  deriving DecidableEq, Repr

structure Edit where
  line : Nat
  action : Action
  deriving DecidableEq, Repr

def delete (d : Derivation) (i : Nat) (line : Line) : Except Fault Derivation :=
  if line.fixed then .error (.fixed i)
  else .ok { d with rows := prune (removeRow d.rows i) }

def changeReading (i : Nat) (line : Line) (change : Reading → Reading) : Except Fault Line :=
  match line.step.reading with
  | some reading => .ok { line with step := { line.step with reading := some (change reading) } }
  | none => .error (.noLaw i)

def changeArgument (d : Derivation) (i : Nat) (row : Row) (slot : Nat) (label : Option Label) :
    Except Fault Line :=
  if row.line.step.direction = .backward then
    .error (.derivedArguments i)
  else if row.line.arguments.length ≤ slot then
    .error (.noSlot i slot)
  else
    match label with
    | none => .ok changed
    | some label => do
      let _ ← d.indexOf label
      if label.visibleAt row.label then .ok changed else .error (.notVisible i label)
where
  changed : Line := { row.line with arguments := row.line.arguments.set slot label }

def changeRule (i : Nat) (line : Line) (rule : Option Rule) : Except Fault Line :=
  if rule = some .assumption then
    .error (.ruleNotOffered i .assumption)
  else if rule = some .directProof ∧ line.step.direction = .forward then
    .error (.ruleNotOffered i .directProof)
  else
    .ok (line.setRule rule)

def turn (line : Line) : Line :=
  let direction := line.step.direction.flip
  let line :=
    if direction = .forward ∧ line.step.rule = some .directProof then line.setRule none else line
  line.setDirection direction

def changeChosen (i : Nat) (line : Line) (chosen : Option Nat) : Except Fault Line :=
  if line.step.reading.isSome then .ok { line with step := { line.step with chosen } }
  else .error (.noLaw i)

def changed (d : Derivation) (i : Nat) (row : Row) (change : Change) : Except Fault Line :=
  let line := row.line
  if line.editable then
    match change with
    | .setRule rule => changeRule i line rule
    | .toggleDirection => .ok (turn line)
    | .setSide side => .ok { line with step := { line.step with side } }
    | .setLaw law => changeReading i line fun r => { r with law }
    | .setLeftToRight leftToRight => changeReading i line fun r => { r with leftToRight }
    | .setLattice lattice => changeReading i line fun r => { r with lattice }
    | .setChosen chosen => changeChosen i line chosen
    | .setArgument slot label => d.changeArgument i row slot label
  else
    .error (.notEditable i)

def apply (d : Derivation) (edit : Edit) : Except Fault Derivation := do
  let row ← d.row edit.line
  match edit.action with
  | .toggleEditing => .ok (d.setLine edit.line { row.line with editing := !row.line.editing })
  | .delete => d.delete edit.line row.line
  | .change change => do
    let line ← d.changed edit.line row change
    d.update edit.line line

end ProofDesk.Derivation
