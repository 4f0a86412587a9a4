import ProofDesk.Derivation.Check
import ProofDesk.View

/-!
This module contains the display of derivations.
-/

namespace ProofDesk.Derivation

def marks (line : Line) : List (Position × Direction) :=
  match line.step.direction, line.step.reading with
  | .backward, some reading =>
    (reading.chosenPositions line.step.chosen line.formula).map (·, .backward)
  | _, _ => []

def subject? (d : Derivation) (line : Line) : Option Formula :=
  match line.step.direction with
  | .backward => some line.formula
  | .forward =>
    match line.arguments with
    | some label :: _ => (d.lineAt label).toOption.map Line.formula
    | _ => none

def matchCount? (d : Derivation) (line : Line) : Option Nat :=
  match line.step.rule, line.step.reading with
  | some .equivalence, some reading =>
    if reading.isComplete then (d.subject? line).map reading.matchCount else none
  | _, _ => none

def lineView (d : Derivation) (i : Nat) (row : Row) : Except Fault LineView := do
  let line := row.line
  return {
    label := some row.label.text
    depth := row.label.depth
    formula := line.formula.marked (marks line)
    ruleName := line.step.name?
    direction := line.step.direction
    isComplete := line.step.isComplete
    isCorrect := ← d.isCorrect i
    isEditing := line.editing
    arguments := line.arguments.map fun arg => arg.map Label.text
    choices := if line.isForward then (d.visibleFrom i).map Label.text else []
    needsVersion := line.step.needsSide || line.step.reading.any Reading.needsLattice
    matchCount := d.matchCount? line
    isDeletable := !line.fixed
    isEditable := line.editable }

def view (d : Derivation) : Except Fault (List LineView) :=
  d.rows.zipIdx.mapM fun (row, i) => d.lineView i row

end ProofDesk.Derivation
