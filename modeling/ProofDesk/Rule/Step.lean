import ProofDesk.Law.Reading
import ProofDesk.Rule.Basic

/-!
This module contains steps: rules together with the choices that are needed to apply them. Forward a
step leads from premises to a conclusion, backward from conclusions to the goals that prove them.
-/

namespace ProofDesk

structure Step where
  rule : Option Rule
  direction : Direction
  -- The operand that is kept, where a rule has two possible results.
  side : Option Side
  reading : Option Reading
  -- The only match that an equivalence step uses; without it, it uses every outermost one.
  chosen : Option Nat
  deriving DecidableEq, Repr

inductive StepError where
  | notAllowed (rule : Rule) (direction : Direction)
  | incomplete
  | noMatch
  | wrongInputCount (expected actual : Nat)
  deriving DecidableEq, Repr

def StepError.message : StepError → String
  | notAllowed rule direction => s!"{rule.name} cannot be applied {direction.name}"
  | incomplete => "rule is missing a choice"
  | noMatch => "rule does not match its inputs"
  | wrongInputCount expected actual => s!"rule takes {expected} propositions, got {actual}"

namespace Step

def setRule (s : Step) (rule : Option Rule) : Step :=
  if rule = some .equivalence then
    { s with rule, reading := some (s.reading.getD .unset) }
  else
    { s with rule, reading := none, chosen := none }

def ofRule (rule : Option Rule) (direction : Direction) : Step :=
  setRule ⟨none, direction, none, none, none⟩ rule

def unknown (direction : Direction) : Step :=
  ofRule none direction

def assumption : Step :=
  ofRule (some .assumption) .backward

def ofReading (reading : Reading) (direction : Direction) : Step :=
  { ofRule (some .equivalence) direction with reading := some reading }

def inputs (s : Step) : Nat :=
  s.rule.elim 0 (·.inputs s.direction)

def outputs (s : Step) : Nat :=
  s.rule.elim 0 (·.outputs s.direction)

def arity (s : Step) : Nat :=
  match s.direction with
  | .forward => s.inputs
  | .backward => s.outputs

def needsSide (s : Step) : Bool :=
  match s.direction with
  | .forward => s.outputs == 2
  | .backward => s.rule == some .introOr

def isComplete (s : Step) : Bool :=
  match s.rule with
  | none => false
  | some rule =>
    if s.needsSide && s.side.isNone then false
    else if rule = .equivalence then s.reading.any Reading.isComplete
    else true

def name? (s : Step) : Option String :=
  match s.rule with
  | none => none
  | some .equivalence => s.reading.bind Reading.name?
  | some rule => some rule.name

def lawApplies (s : Step) : List Formula → Bool
  | [p] => s.reading.any (·.applies s.chosen p)
  | _ => false

def fitsForward (s : Step) (ps : List Formula) : Bool :=
  match s.rule, ps with
  | some .modusPonens, [p, .imp p' _] => p' == p
  | some .introAnd, [_, _] => true
  | some .elimAnd, [.conj _ _] => true
  | some .elimOr, [.disj p _, .neg p'] => p == p'
  | some .equivalence, ps => s.lawApplies ps
  | _, _ => false

def fitsBackward (s : Step) (ps : List Formula) : Bool :=
  match s.rule, ps with
  | some .directProof, [.imp _ _] => true
  | some .introAnd, [.conj _ _] => true
  | some .elimAnd, [_, _] => true
  | some .introOr, [.disj _ _] => true
  | some .equivalence, ps => s.lawApplies ps
  | some .assumption, _ => true
  | _, _ => false

def fits (s : Step) (ps : List Formula) : Bool :=
  match s.direction with
  | .forward => s.fitsForward ps
  | .backward => s.fitsBackward ps

def ready (s : Step) (direction : Direction) : Except StepError Rule :=
  match s.rule with
  | none => .error .incomplete
  | some rule =>
    if !rule.supports direction then .error (.notAllowed rule direction)
    else if !s.isComplete then .error .incomplete
    else .ok rule

def pick (s : Step) (left right : Formula) : Formula :=
  match s.side with
  | some .left => left
  | _ => right

def conclusion? (s : Step) : Rule → List Formula → Option Formula
  | .modusPonens, [_, .imp _ q] => some q
  | .introAnd, [p, q] => some (.conj p q)
  | .elimAnd, [.conj p q] => some (s.pick p q)
  | .elimOr, [.disj _ q, _] => some q
  | .equivalence, [p] => s.reading.map (·.atChosen s.chosen p)
  | _, _ => none

def conclude (s : Step) (premises : List Formula) : Except StepError Formula :=
  match s.ready .forward with
  | .error e => .error e
  | .ok rule =>
    if premises.length ≠ rule.inputs .forward then
      .error (.wrongInputCount (rule.inputs .forward) premises.length)
    else if s.fitsForward premises then
      (s.conclusion? rule premises).elim (.error .noMatch) .ok
    else
      .error .noMatch

def goals? (s : Step) : Rule → List Formula → Option (List Formula)
  | .assumption, _ => some []
  | .directProof, [.imp p q] => some [p, q]
  | .introAnd, [.conj p q] => some [p, q]
  | .elimAnd, [p, q] => some [.conj p q]
  | .introOr, [.disj p q] => some [s.pick p q]
  | .equivalence, [p] => s.reading.map fun reading => [reading.atChosen s.chosen p]
  | _, _ => none

def reduce (s : Step) (conclusions : List Formula) : Except StepError (List Formula) :=
  match s.ready .backward with
  | .error e => .error e
  | .ok rule =>
    if s.direction = .forward then
      .error (.notAllowed rule .backward)
    else if conclusions.length ≠ rule.inputs .backward then
      .error (.wrongInputCount (rule.inputs .backward) conclusions.length)
    else if s.fitsBackward conclusions then
      (s.goals? rule conclusions).elim (.error .noMatch) .ok
    else
      .error .noMatch

end Step

end ProofDesk
