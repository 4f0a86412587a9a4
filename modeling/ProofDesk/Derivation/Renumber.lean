import ProofDesk.Derivation.Basic

/-!
This module contains the removal of lines and the renumbering of labels and citations around lines
that are put in or taken out.
-/

namespace ProofDesk

namespace Row

def shift (pos : Label) (delta : Int) (row : Row) : Row where
  label := row.label.shift pos delta
  line := { row.line with
    arguments := row.line.arguments.map fun arg => arg.map fun label =>
      if label.before pos then label else label.shift pos delta }

def forget (label : Label) (row : Row) : Row :=
  { row with line := { row.line with
      arguments := row.line.arguments.map fun arg => if arg = some label then none else arg } }

end Row

namespace Derivation

def shiftFrom (pos : Label) (first : Nat) (delta : Int) (rows : List Row) : List Row :=
  rows.take first ++ (rows.drop first).map (Row.shift pos delta)

def removeRow (rows : List Row) (i : Nat) : List Row :=
  match rows[i]? with
  | none => rows
  | some row =>
    shiftFrom row.label i (-1) ((rows.eraseIdx i).map (Row.forget row.label))

end Derivation

end ProofDesk
