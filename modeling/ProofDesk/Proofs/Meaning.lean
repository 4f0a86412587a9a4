import ProofDesk.Proofs.Law.Meaning
import ProofDesk.Rule.Step

/-!
This module contains the meaning of steps: a step leads from true premises to a true conclusion, or
from true goals to a true formula.
-/

namespace ProofDesk

namespace Step

variable {s : Step}

theorem ready_eq_ok {direction : Direction} {rule : Rule} :
    s.ready direction = .ok rule
      ↔
    s.rule = some rule ∧ rule.supports direction = true ∧ s.isComplete = true := by
  unfold ready
  cases hr : s.rule with
  | none => simp
  | some rule' =>
    simp only [Option.some.injEq]
    split
    . next h =>
      simp only [reduceCtorEq, false_iff]
      rintro ⟨rfl, h', -⟩
      simp [h'] at h
    . next h =>
      split
      . next hc =>
        simp only [reduceCtorEq, false_iff]
        rintro ⟨-, -, hc'⟩
        simp [hc'] at hc
      . next hc =>
        simp only [Except.ok.injEq]
        constructor
        . rintro rfl
          simp_all
        . exact And.left

theorem conclude_eq_ok {premises : List Formula} {q : Formula} :
    s.conclude premises = .ok q
      ↔
    ∃ rule, s.ready .forward = .ok rule ∧ premises.length = rule.inputs .forward
      ∧ s.fitsForward premises = true ∧ s.conclusion? rule premises = some q := by
  unfold conclude
  cases s.ready .forward with
  | error e => simp
  | ok rule =>
    simp only [Except.ok.injEq, exists_eq_left']
    split
    . next h => simp [h]
    . next h =>
      split
      . next hf =>
        cases s.conclusion? rule premises with
        | none => simp
        | some q' => simp_all
      . next hf => simp [hf]

theorem reduce_eq_ok {conclusions goals : List Formula} :
    s.reduce conclusions = .ok goals
      ↔
    ∃ rule, s.ready .backward = .ok rule ∧ s.direction = .backward
      ∧ conclusions.length = rule.inputs .backward
      ∧ s.fitsBackward conclusions = true ∧ s.goals? rule conclusions = some goals := by
  unfold reduce
  cases s.ready .backward with
  | error e => simp
  | ok rule =>
    simp only [Except.ok.injEq, exists_eq_left']
    split
    . next h => simp [h]
    . next h =>
      have hd : s.direction = .backward := by
        cases hs : s.direction <;> simp_all
      split
      . next h => simp [h]
      . next h =>
        split
        . next hf =>
          cases s.goals? rule conclusions with
          | none => simp
          | some goals' => simp_all
        . next hf => simp [hf]

theorem pick_eq_or (s : Step) (p q : Formula) : s.pick p q = p ∨ s.pick p q = q := by
  unfold pick
  split <;> simp

theorem conclude_sound {premises : List Formula} {q : Formula} (assign : String → Bool)
    (h : s.conclude premises = .ok q) (hp : ∀ p ∈ premises, p.eval assign = true) :
    q.eval assign = true := by
  obtain ⟨rule, hready, -, hfits, hq⟩ := conclude_eq_ok.mp h
  obtain ⟨hrule, -, -⟩ := ready_eq_ok.mp hready
  unfold conclusion? at hq
  split at hq
  . next p p' q' =>
    simp only [Option.some.injEq] at hq
    subst hq
    simp only [fitsForward, hrule, beq_iff_eq] at hfits
    subst hfits
    have himp := hp (.imp p' q') (by simp)
    have hp' := hp p' (by simp)
    simpa [hp'] using himp
  . simp only [Option.some.injEq] at hq
    subst hq
    simp_all
  . next p q' =>
    simp only [Option.some.injEq] at hq
    have hpq := hp _ (List.mem_singleton_self _)
    simp only [Formula.eval_bin, Connective.eval_and, Bool.and_eq_true] at hpq
    cases s.pick_eq_or p q' with
    | inl hl => rw [← hq, hl, hpq.1]
    | inr hr => rw [← hq, hr, hpq.2]
  . next p q' p' =>
    simp only [Option.some.injEq] at hq
    subst hq
    unfold fitsForward at hfits
    simp only [hrule] at hfits
    split at hfits <;> simp_all
  . next p =>
    simp only [Option.map_eq_some_iff] at hq
    obtain ⟨r, -, hq⟩ := hq
    rw [← hq, Reading.atChosen_eval_eq_eval]
    simp_all
  . simp at hq

theorem reduce_directProof {p : Formula} {goals : List Formula} (h : s.reduce [p] = .ok goals)
    (hrule : s.rule = some .directProof) : ∃ a b, p = .imp a b ∧ goals = [a, b] := by
  obtain ⟨rule, hready, -, -, -, hgoals⟩ := reduce_eq_ok.mp h
  obtain ⟨hrule', -, -⟩ := ready_eq_ok.mp hready
  have : rule = .directProof := by simp_all
  subst this
  unfold goals? at hgoals
  split at hgoals
  . simp_all
  . next a b _ heq =>
    simp only [List.cons.injEq, and_true] at heq
    simp only [Option.some.injEq] at hgoals
    exact ⟨a, b, heq, hgoals.symm⟩
  all_goals simp_all

theorem exists_of_lawApplies {ps : List Formula} (h : s.lawApplies ps = true) :
    ∃ p reading, ps = [p] ∧ s.reading = some reading := by
  unfold lawApplies at h
  split at h
  . next p =>
    obtain ⟨reading, hreading, -⟩ := (Option.any_eq_true _ _).mp h
    exact ⟨p, reading, rfl, hreading⟩
  . simp at h

theorem exists_conclude_eq_ok {premises : List Formula} (hcomplete : s.isComplete = true)
    (hforward : s.direction = .forward) (hfits : s.fits premises = true) :
    ∃ q, s.conclude premises = .ok q := by
  simp only [fits, hforward] at hfits
  have hcases : ∃ rule, s.rule = some rule ∧ rule.supports .forward = true
      ∧ premises.length = rule.inputs .forward
      ∧ (s.conclusion? rule premises).isSome = true := by
    unfold fitsForward at hfits
    split at hfits
    case h_5 hrule =>
      obtain ⟨p, reading, rfl, hreading⟩ := exists_of_lawApplies hfits
      exact ⟨_, hrule, rfl, rfl, by simp [conclusion?, hreading]⟩
    case h_6 => simp at hfits
    all_goals
      next hrule => exact ⟨_, hrule, rfl, rfl, rfl⟩
  obtain ⟨rule, hrule, hsupports, hlen, hsome⟩ := hcases
  obtain ⟨q, hq⟩ := Option.isSome_iff_exists.mp hsome
  have hready := ready_eq_ok.mpr ⟨hrule, hsupports, hcomplete⟩
  exact ⟨q, conclude_eq_ok.mpr ⟨rule, hready, hlen, hfits, hq⟩⟩

theorem exists_reduce_eq_ok {conclusions : List Formula} (hcomplete : s.isComplete = true)
    (hbackward : s.direction = .backward) (hfits : s.fits conclusions = true)
    (hlen : s.rule = some .assumption → conclusions.length = 1) :
    ∃ goals, s.reduce conclusions = .ok goals := by
  simp only [fits, hbackward] at hfits
  have hcases : ∃ rule, s.rule = some rule ∧ rule.supports .backward = true
      ∧ conclusions.length = rule.inputs .backward
      ∧ (s.goals? rule conclusions).isSome = true := by
    unfold fitsBackward at hfits
    split at hfits
    case h_5 hrule =>
      obtain ⟨p, reading, rfl, hreading⟩ := exists_of_lawApplies hfits
      exact ⟨_, hrule, rfl, rfl, by simp [goals?, hreading]⟩
    case h_6 hrule => exact ⟨_, hrule, rfl, hlen hrule, rfl⟩
    case h_7 => simp at hfits
    all_goals
      next hrule => exact ⟨_, hrule, rfl, rfl, rfl⟩
  obtain ⟨rule, hrule, hsupports, hlen, hsome⟩ := hcases
  obtain ⟨goals, hgoals⟩ := Option.isSome_iff_exists.mp hsome
  have hready := ready_eq_ok.mpr ⟨hrule, hsupports, hcomplete⟩
  exact ⟨goals, reduce_eq_ok.mpr ⟨rule, hready, hbackward, hlen, hfits, hgoals⟩⟩

theorem arity_le_two (s : Step) : s.arity ≤ 2 := by
  unfold arity inputs outputs
  cases s.rule with
  | none => cases s.direction <;> simp
  | some rule => cases rule <;> cases s.direction <;> decide

theorem length_of_reduce_eq_ok {conclusions goals : List Formula}
    (h : s.reduce conclusions = .ok goals) : goals.length = s.arity := by
  obtain ⟨rule, hready, hdirection, -, -, hgoals⟩ := reduce_eq_ok.mp h
  obtain ⟨hrule, -, -⟩ := ready_eq_ok.mp hready
  simp only [arity, hdirection, outputs, hrule, Option.elim_some]
  unfold goals? at hgoals
  split at hgoals
  case h_6 =>
    obtain ⟨r, -, hgoals⟩ := Option.map_eq_some_iff.mp hgoals
    rw [← hgoals]
    rfl
  case h_7 => simp at hgoals
  all_goals
    simp only [Option.some.injEq] at hgoals
    rw [← hgoals]
    rfl

theorem reduce_sound {conclusions goals : List Formula} (assign : String → Bool)
    (h : s.reduce conclusions = .ok goals) (hdp : s.rule ≠ some .directProof)
    (has : s.rule ≠ some .assumption) (hg : ∀ g ∈ goals, g.eval assign = true) :
    ∀ p ∈ conclusions, p.eval assign = true := by
  -- A step whose goals are true has true conclusions. A direct proof is not asked to, since it
  -- reaches its second goal only under its first one, and neither is an assumption.
  obtain ⟨rule, hready, -, -, hfits, hgoals⟩ := reduce_eq_ok.mp h
  obtain ⟨hrule, -, -⟩ := ready_eq_ok.mp hready
  unfold goals? at hgoals
  split at hgoals
  . simp [hrule] at has
  . simp [hrule] at hdp
  . simp only [Option.some.injEq] at hgoals
    subst hgoals
    simp_all
  . simp only [Option.some.injEq] at hgoals
    subst hgoals
    simp_all
  . next a b =>
    simp only [Option.some.injEq] at hgoals
    subst hgoals
    have hpick := hg _ (List.mem_singleton_self _)
    cases s.pick_eq_or a b with
    | inl hl => simp_all
    | inr hr => simp_all
  . next q =>
    simp only [Option.map_eq_some_iff] at hgoals
    obtain ⟨r, -, hgoals⟩ := hgoals
    subst hgoals
    have hq := hg _ (List.mem_singleton_self _)
    rw [Reading.atChosen_eval_eq_eval] at hq
    simpa using hq
  . simp at hgoals

section Contract

variable {ps : List Formula}

theorem exists_conclude_eq_ok_iff (hforward : s.direction = .forward) :
    (∃ q, s.conclude ps = .ok q) ↔ s.isComplete = true ∧ s.fits ps = true := by
  constructor
  . rintro ⟨q, h⟩
    obtain ⟨rule, hready, -, hfits, -⟩ := conclude_eq_ok.mp h
    obtain ⟨-, -, hcomplete⟩ := ready_eq_ok.mp hready
    refine ⟨hcomplete, ?_⟩
    rw [fits, hforward]
    exact hfits
  . rintro ⟨hcomplete, hfits⟩
    exact exists_conclude_eq_ok hcomplete hforward hfits

theorem exists_reduce_eq_ok_iff (hbackward : s.direction = .backward)
    (hlen : ps.length = s.inputs) :
    (∃ goals, s.reduce ps = .ok goals) ↔ s.isComplete = true ∧ s.fits ps = true := by
  constructor
  . rintro ⟨goals, h⟩
    obtain ⟨rule, hready, -, -, hfits, -⟩ := reduce_eq_ok.mp h
    obtain ⟨-, -, hcomplete⟩ := ready_eq_ok.mp hready
    refine ⟨hcomplete, ?_⟩
    rw [fits, hbackward]
    exact hfits
  . rintro ⟨hcomplete, hfits⟩
    apply exists_reduce_eq_ok hcomplete hbackward hfits
    intro hrule
    rw [hlen, inputs, hrule]
    rfl

theorem applicable_iff_and_sound (s : Step) (ps : List Formula) (hlen : ps.length = s.inputs) :
    (s.direction = .forward →
        ((∃ q, s.conclude ps = .ok q) ↔ s.isComplete = true ∧ s.fits ps = true)
          ∧ ∀ q, s.conclude ps = .ok q → ∀ assign,
              (∀ p ∈ ps, p.eval assign = true) → q.eval assign = true)
      ∧ (s.direction = .backward →
        ((∃ goals, s.reduce ps = .ok goals) ↔ s.isComplete = true ∧ s.fits ps = true)
          ∧ ∀ goals, s.reduce ps = .ok goals →
              goals.length = s.arity
                ∧ (s.rule ≠ some .directProof → s.rule ≠ some .assumption → ∀ assign,
                    (∀ g ∈ goals, g.eval assign = true) → ∀ p ∈ ps, p.eval assign = true)
                ∧ (s.rule = some .directProof → ∃ c a b, ps = [c] ∧ goals = [a, b]
                    ∧ ∀ assign, a.eval assign = false ∨ b.eval assign = true →
                        c.eval assign = true)) := by
  constructor
  . intro hforward
    refine ⟨exists_conclude_eq_ok_iff hforward, ?_⟩
    intro q h assign hps
    exact conclude_sound assign h hps
  . intro hbackward
    refine ⟨exists_reduce_eq_ok_iff hbackward hlen, ?_⟩
    intro goals h
    refine ⟨length_of_reduce_eq_ok h, ?_, ?_⟩
    . intro hdp has assign hgoals
      exact reduce_sound assign h hdp has hgoals
    . intro hrule
      have hone : ps.length = 1 := by
        rw [hlen, inputs, hrule, hbackward]
        rfl
      obtain ⟨c, rfl⟩ := List.length_eq_one_iff.mp hone
      obtain ⟨a, b, rfl, rfl⟩ := reduce_directProof h hrule
      refine ⟨_, a, b, rfl, rfl, ?_⟩
      intro assign heval
      rcases heval with ha | hb
      . simp [ha]
      . simp [hb]

theorem applicable_iff_and_sound_backward :
    let elim : Step := ofRule (some .elimAnd) .backward
    let direct : Step := ofRule (some .directProof) .backward
    let p : Formula := .var "P"
    let q : Formula := .var "Q"
    elim.reduce [p, q] = .ok [.conj p q]
      ∧ (∀ assign, (Formula.conj p q).eval assign = true →
          p.eval assign = true ∧ q.eval assign = true)
      ∧ direct.reduce [.imp p q] = .ok [p, q]
      ∧ (∀ assign, p.eval assign = false ∨ q.eval assign = true →
          (Formula.imp p q).eval assign = true) := by
  intro elim direct p q
  obtain ⟨-, helim⟩ := applicable_iff_and_sound elim [p, q] rfl
  obtain ⟨-, hdirect⟩ := applicable_iff_and_sound direct [.imp p q] rfl
  obtain ⟨-, hsound, -⟩ := (helim rfl).2 [.conj p q] rfl
  obtain ⟨-, -, hgoals⟩ := (hdirect rfl).2 [p, q] rfl
  refine ⟨rfl, ?_, rfl, ?_⟩
  . intro assign heval
    have hall := hsound (by decide) (by decide) assign (by simpa using heval)
    exact ⟨hall p (by simp), hall q (by simp)⟩
  . obtain ⟨c, a, b, hc, hab, himp⟩ := hgoals rfl
    cases hc
    cases hab
    exact himp

end Contract

end Step

end ProofDesk
