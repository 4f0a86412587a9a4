import ProofDesk.Chain.Basic
import ProofDesk.Proofs.Meaning

/-!
This module contains the soundness of equivalence chains: a correct link keeps the truth value of
the formula above it, in whichever direction it is read, and so does a chain of correct links.
-/

namespace ProofDesk

namespace Link

variable {l : Link} {above : Formula} (assign : String → Bool)

theorem result?_eval_eq_eval {result : Formula} (h : l.result? above = some result) :
    result.eval assign = (l.subject above).eval assign := by
  unfold result? at h
  split at h
  . simp only [Option.some.injEq] at h
    rw [← h]
    apply Reading.atChosen_eval_eq_eval
  . simp at h

theorem eval_eq_of_isCorrect (h : l.isCorrect above = true) :
    l.formula.eval assign = above.eval assign := by
  simp only [isCorrect, beq_iff_eq] at h
  have heval := result?_eval_eq_eval assign h
  -- The law is used on the formula above or on the link itself, and gives the other one.
  cases hdirection : l.direction with
  | forward => simpa [subject, target, hdirection] using heval
  | backward => simpa [subject, target, hdirection] using heval.symm

end Link

namespace Chain

theorem eval_eq_of_allCorrect {above : Formula} {links : List Link} (assign : String → Bool)
    (h : allCorrect above links = true) :
    ∀ link ∈ links, link.formula.eval assign = above.eval assign := by
  induction links generalizing above with
  | nil => simp
  | cons link links ih =>
    simp only [allCorrect, Bool.and_eq_true] at h
    have hlink := link.eval_eq_of_isCorrect assign h.1
    intro l hl
    cases List.mem_cons.mp hl with
    | inl hl => rw [hl, hlink]
    | inr hl => rw [ih h.2 l hl, hlink]

theorem start_eval_eq_goal_eval_of_isSolved (c : Chain) (h : c.isSolved = true)
    (assign : String → Bool) : c.start.eval assign = c.goal.eval assign := by
  simp only [isSolved, Bool.and_eq_true] at h
  obtain ⟨hlast, hcorrect⟩ := h
  obtain ⟨last, hmem, hgoal⟩ := (Option.any_eq_true _ _).mp hlast
  have heval := eval_eq_of_allCorrect assign hcorrect last (List.mem_of_getLast? hmem)
  rw [← heval, beq_iff_eq.mp hgoal]

def meetingChain : Chain :=
  let p : Formula := .var "P"
  let q : Formula := .neg (.var "Q")
  let goal : Formula := .imp (.neg (.neg p)) q
  { start := .neg (.conj p (.var "Q"))
    startStamp := ⟨0⟩
    goal
    links := [
      { Link.new (.disj (.neg p) q) ⟨1⟩ .forward with reading := .ofLaw .deMorgan },
      { Link.new (.disj (.neg (.neg (.neg p))) q) ⟨2⟩ .forward with
        reading := .reversed .doubleNegation none
        chosen := some 1 },
      { Link.new goal ⟨3⟩ .backward with reading := .ofLaw .implication }]
    stamp := ⟨4⟩ }

theorem meetingChain_start_eval_eq_goal_eval :
    meetingChain.isSolved = true
      ∧ ∀ assign, meetingChain.start.eval assign = meetingChain.goal.eval assign :=
  have h : meetingChain.isSolved = true := by decide +kernel
  ⟨h, start_eval_eq_goal_eval_of_isSolved meetingChain h⟩

end Chain

end ProofDesk
