import ProofDesk.Formula.Choice
import ProofDesk.Formula.Reader
import ProofDesk.Json.Basic
import ProofDesk.Label
import ProofDesk.Rule.Step

/-!
This module contains the number codes of stored choices, where 0 stands for an open choice, and the
reasons for which a stored proof is rejected.
-/

namespace ProofDesk

inductive SnapshotError where
  | json
  | formula (error : SyntaxError)
  | label (error : LabelError)
  | ruleCode (code : Int)
  | lawCode (code : Int)
  | versionCode (code : Int)
  | labelOrder (line : Nat)
  deriving DecidableEq, Repr

def SnapshotError.message : SnapshotError → String
  | json => "invalid snapshot JSON"
  | formula error => s!"invalid formula in snapshot: {error.message}"
  | label error => error.message
  | ruleCode code => s!"unknown inference rule code {code}"
  | lawCode code => s!"unknown equivalence rule code {code}"
  | versionCode code => s!"unknown version code {code}"
  | labelOrder line => s!"labels are not in proof order at line {line}"

namespace Code

def ofChoice (code : α → Nat) (choice : Option α) : Int :=
  choice.elim 0 fun a => code a

def toChoice (ofCode? : Nat → Option α) (error : Int → SnapshotError) (code : Int) :
    Except SnapshotError (Option α) :=
  if code = 0 then .ok none
  else
    match if 0 < code then ofCode? code.toNat else none with
    | some a => .ok (some a)
    | none => .error (error code)

/--
The stored number of a chosen match, or -1 if none is chosen. The number is kept in 64 bits with a
sign.
-/
def ofChosen (chosen : Option Nat) : Int :=
  chosen.elim (-1) fun n => (n : Int).bmod Json.wordSize

def toChosen (number : Int) : Option Nat :=
  if 0 ≤ number then some number.toNat else none

end Code

namespace Stored

def formula (text : String) : Except SnapshotError Formula :=
  match Formula.ofText text with
  | .ok p => .ok p
  | .error e => .error (.formula e)

def label (text : String) : Except SnapshotError Label :=
  match Label.ofText text with
  | .ok l => .ok l
  | .error e => .error (.label e)

end Stored

end ProofDesk
