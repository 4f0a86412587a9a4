import ProofDesk.Formula.Basic

/-!
This module contains the twelve laws of propositional equivalence. Each law leads from an instance
of its left side to the equivalent instance of its right side and, where nothing is lost, back.
-/

namespace ProofDesk

inductive Law where
  | identity
  | domination
  | idempotency
  | commutativity
  | associativity
  | distributivity
  | absorption
  | negation
  | deMorgan
  | doubleNegation
  | implication
  | contrapositive
  deriving DecidableEq, Repr, Inhabited

namespace Law

def all : List Law :=
  [identity, domination, idempotency, commutativity, associativity, distributivity, absorption,
    negation, deMorgan, doubleNegation, implication, contrapositive]

def code (law : Law) : Nat :=
  all.idxOf law + 1

def ofCode? : Nat → Option Law
  | 0 => none
  | n + 1 => all[n]?

def name : Law → String
  | identity => "Identity"
  | domination => "Domination"
  | idempotency => "Idempotency"
  | commutativity => "Commutativity"
  | associativity => "Associativity"
  | distributivity => "Distributivity"
  | absorption => "Absorption"
  | negation => "Negation"
  | deMorgan => "De Morgan"
  | doubleNegation => "Double Negation"
  | implication => "Law of Implication"
  | contrapositive => "Contrapositive"

def key : Law → String
  | deMorgan => "DeMorgan"
  | doubleNegation => "DoubleNegation"
  | implication => "LawOfImplication"
  | law => law.name

def isReversible : Law → Bool
  | domination => false
  | absorption => false
  | negation => false
  | _ => true

def needsLattice : Law → Bool
  | identity => true
  | idempotency => true
  | _ => false

def leftToRight? : Law → Formula → Option Formula
  -- `P and T = P`, `P or F = P`
  | identity, .latt l p (.const b) => if b = l.unit then some p else none
  -- `P and F = F`, `P or T = T`
  | domination, .latt l _ (.const b) => if b = l.unit then none else some (.const b)
  | idempotency, .latt _ p q => if p = q then some p else none
  | commutativity, .latt l p q => some (.latt l q p)
  | associativity, .latt l (.latt l' p q) r =>
    if l' = l then some (.latt l p (.latt l q r)) else none
  | distributivity, .latt l p (.latt l' q r) =>
    if l' = l then none else some (.latt l' (.latt l p q) (.latt l p r))
  | absorption, .latt l p (.latt l' p' _) => if l' ≠ l ∧ p' = p then some p else none
  -- `P and not P = F`, `P or not P = T`
  | negation, .latt l p (.neg p') => if p' = p then some (.const (!l.unit)) else none
  | deMorgan, .neg (.latt l p q) => some (.latt l.dual (.neg p) (.neg q))
  | doubleNegation, .neg (.neg p) => some p
  | implication, .imp p q => some (.disj (.neg p) q)
  | contrapositive, .imp p q => some (.imp (.neg q) (.neg p))
  | _, _ => none

/--
The left side of the law, if the whole formula is an instance of its right side. `choice` names the
connective where the right side leaves it open.
-/
def rightToLeft? (choice : Option Lattice) : Law → Formula → Option Formula
  | identity, p => choice.map fun l => .latt l p (.const l.unit)
  | idempotency, p => choice.map fun l => .latt l p p
  | commutativity, .latt l p q => some (.latt l q p)
  | associativity, .latt l p (.latt l' q r) =>
    if l' = l then some (.latt l (.latt l p q) r) else none
  | distributivity, .latt l (.latt l₁ p q) (.latt l₂ p' r) =>
    if l₁ ≠ l ∧ l₂ ≠ l ∧ p' = p then some (.latt l₁ p (.latt l q r)) else none
  | deMorgan, .latt l (.neg p) (.neg q) => some (.neg (.latt l.dual p q))
  | doubleNegation, p => some (.neg (.neg p))
  | implication, .disj (.neg p) q => some (.imp p q)
  | contrapositive, .imp (.neg q) (.neg p) => some (.imp p q)
  | _, _ => none

end Law

end ProofDesk
