import ProofDesk.Fault

/-!
This module contains the course of editing a proof: the current state, and the stored form of every
state that an accepted edit led to.
-/

namespace ProofDesk

structure Journal (σ : Type) where
  state : σ
  published : List String

namespace Journal

def begin (state : σ) : Journal σ :=
  ⟨state, []⟩

def apply (encode : σ → String) (edit : σ → Except Fault σ) (s : Journal σ) :
    Except Fault (Journal σ) := do
  let state ← edit s.state
  return ⟨state, s.published ++ [encode state]⟩

end Journal

end ProofDesk
