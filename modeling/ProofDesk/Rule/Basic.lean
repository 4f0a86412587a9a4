import ProofDesk.Direction
import ProofDesk.Formula.Basic

/-!
This module contains the inference rules that can justify a line of a derivation.
-/

namespace ProofDesk

inductive Rule where
  | directProof
  | modusPonens
  | introAnd
  | elimAnd
  | introOr
  | elimOr
  | equivalence
  | assumption
  deriving DecidableEq, Repr, Inhabited

namespace Rule

def all : List Rule :=
  [directProof, modusPonens, introAnd, elimAnd, introOr, elimOr, equivalence, assumption]

def code (rule : Rule) : Nat :=
  all.idxOf rule + 1

def ofCode? : Nat → Option Rule
  | 0 => none
  | n + 1 => all[n]?

def name : Rule → String
  | directProof => "Direct Proof"
  | modusPonens => "Modus Ponens"
  | introAnd => "Intro ⋀"
  | elimAnd => "Elim ⋀"
  | introOr => "Intro ⋁"
  | elimOr => "Elim ⋁"
  | equivalence => "Equivalence"
  | assumption => "Assumption"

def key : Rule → String
  | directProof => "DirectProof"
  | modusPonens => "ModusPonens"
  | introAnd => "IntroAnd"
  | elimAnd => "ElimAnd"
  | introOr => "IntroOr"
  | elimOr => "ElimOr"
  | equivalence => "Equivalence"
  | assumption => "Assumption"

def supports : Rule → Direction → Bool
  | directProof, .forward => false
  | introOr, .forward => false
  | assumption, .forward => false
  | modusPonens, .backward => false
  | elimOr, .backward => false
  | _, _ => true

def inputs : Rule → Direction → Nat
  | modusPonens, .forward => 2
  | introAnd, .forward => 2
  | elimOr, .forward => 2
  | elimAnd, .backward => 2
  | _, _ => 1

def outputs : Rule → Direction → Nat
  | directProof, _ => 2
  | modusPonens, .backward => 2
  | introAnd, .backward => 2
  | elimOr, .backward => 2
  | elimAnd, .forward => 2
  | introOr, .forward => 2
  | assumption, _ => 0
  | _, _ => 1

end Rule

end ProofDesk
