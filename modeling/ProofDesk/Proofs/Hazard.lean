import ProofDesk.Derivation.Edit

/-!
This module contains the hazards of editing a derivation.

Taking out a line moves the lines after it up, but what lies in its subproof stays where it is. If
the next line has a subproof as well, the lines of both end up under the same labels. A forward line
may take over another formula although a backward line relies on the old one. And labels are limited
to a range.
-/

namespace ProofDesk.Derivation

def Checks (line : Line) : Prop :=
  line.step.direction = .backward ∧ line.step.isComplete = true
    ∧ line.step.fits [line.formula] = true

instance (line : Line) : Decidable (Checks line) :=
  inferInstanceAs (Decidable (_ ∧ _))

def copy? (d : Derivation) (edit : Edit) : Option (Row × Line) :=
  match d.rows[edit.line]?, edit.action with
  | some row, .change change => (d.changed edit.line row change).toOption.map (row, ·)
  | _, _ => none

section Clash

def inUse (rows : List Row) (label : Label) : Bool :=
  rows.any (·.label.isInside label)
    && rows.all fun row => row.label != label || row.line.step.rule == some .directProof

def abandoned (rows : List Row) (label : Label) : Bool :=
  rows.any fun row => row.line.step.rule != some .directProof && label.isInside row.label

/--
Whether row `i` and the line after it both have a subproof.
-/
def clashes (rows : List Row) (i : Nat) : Bool :=
  rows[i]?.any fun row =>
    !abandoned rows row.label && inUse rows row.label && inUse rows (row.label.moveLast 1)

def clashesAround (rows : List Row) (i : Nat) : List Nat → Bool
  | [] => false
  | j :: doomed =>
    let (rows', i') := removeAround rows i doomed
    clashesAround rows i doomed || (j != i' && clashes rows' j)

def blank (line : Line) : Line :=
  { line with step := .unknown .backward, arguments := [] }

/--
Whether an edit lets two subproofs clash: it deletes a line, or regenerates the goals of a backward
line.
-/
def clashing (d : Derivation) (edit : Edit) : Bool :=
  edit.action == .delete && clashes d.rows edit.line
    || (d.copy? edit).any fun (row, line) =>
      let rows := (d.setLine edit.line (blank line)).rows
      decide (Checks line)
        && clashesAround rows edit.line (generated rows row.line.stamp)

end Clash

section Clobber

def leading : List (Option Label) → List Label
  | some label :: args => label :: leading args
  | _ => []

def reliedOn (rows : List Row) (label : Label) : Bool :=
  rows.any fun row => decide (Checks row.line) && (leading row.line.arguments).contains label

def rewrites (d : Derivation) (row : Row) (line : Line) : Bool :=
  line.step.isComplete && line.isForward && line.source == some row.line.stamp
    && (generated d.rows row.line.stamp).isEmpty
    && match d.cited line.arguments with
      | .ok (some premises) => (line.step.conclude premises).toOption.any (· != line.formula)
      | _ => false

/--
Whether an edit rewrites a line that another one is checked against.
-/
def clobbers (d : Derivation) (edit : Edit) : Bool :=
  (d.copy? edit).any fun (row, line) => d.rewrites row line && reliedOn d.rows row.label

end Clobber

section Overflow

def inRange (rows : List Row) : Bool :=
  rows.all fun row => row.label.parts.all (· < Label.maxPart)

/--
Whether the lines that an edit puts in or moves reach the end of the range.
-/
def overflows (d : Derivation) (edit : Edit) : Bool :=
  (d.copy? edit).any fun (row, line) =>
    (d.replaceLine edit.line row line).toOption.any fun next => !inRange next.rows

end Overflow

def orderly (d : Derivation) (edit : Edit) : Bool :=
  !d.clashing edit && !d.overflows edit

def harmless (d : Derivation) (edit : Edit) : Bool :=
  d.orderly edit && !d.clobbers edit

end ProofDesk.Derivation
