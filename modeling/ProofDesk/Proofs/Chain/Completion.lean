import ProofDesk.Proofs.Chain.Formulas

/-!
This module contains what a change of the law of a link does to the chain. If the law applies, its
step is correct afterwards, and of the formulas of the chain at most one is replaced or put in, by
the result of the law.
-/

namespace ProofDesk

namespace Link

structure Carries (l link : Link) : Prop where
  reading : l.reading = link.reading
  chosen : l.chosen = link.chosen
  direction : l.direction = link.direction

variable {l link : Link} {above result : Formula}

theorem Carries.isCorrect_of_forward (h : l.Carries link) (hdirection : link.direction = .forward)
    (hresult : link.result? above = some l.formula) : l.isCorrect above = true := by
  -- Going forward, the result does not depend on the formula of the link.
  have hsubject : l.subject above = link.subject above := by
    simp [subject, h.direction, hdirection]
  have happlicable : l.isApplicable above = link.isApplicable above := by
    rw [isApplicable, isApplicable, h.reading, h.chosen, hsubject]
  have heq : l.result? above = link.result? above := by
    rw [result?, result?, happlicable, h.reading, h.chosen, hsubject]
  simp [isCorrect, target, h.direction, hdirection, heq, hresult]

theorem isCorrect_of_backward (hdirection : link.direction = .backward)
    (hresult : link.result? above = some result) : link.isCorrect result = true := by
  have hsubject : link.subject result = link.subject above := by
    simp [subject, hdirection]
  have heq : link.result? result = link.result? above := by
    rw [result?, result?, isApplicable, isApplicable, hsubject]
  simp [isCorrect, target, hdirection, heq, hresult]

end Link

namespace Chain

variable {c next : Chain} {before after : List Link} {old link : Link}

theorem isCorrect_split (hlinks : c.links = before ++ link :: after) :
    c.isCorrect before.length = .ok (link.isCorrect (c.tip before).1) := by
  unfold isCorrect
  rw [link_split hlinks, above_split hlinks]
  rfl

theorem update_of_result?_eq_none (hlinks : c.links = before ++ old :: after)
    (hresult : link.result? (c.tip before).1 = none) :
    c.update before.length link = .ok (c.setLink before.length link) := by
  unfold update
  rw [link_split hlinks, above_split hlinks]
  simp only [bind, Except.bind, hresult]

theorem exists_update_eq_ok (hlinks : c.links = before ++ old :: after) (link : Link) :
    ∃ next, c.update before.length link = .ok next := by
  unfold update
  rw [link_split hlinks, above_split hlinks]
  simp only [bind, Except.bind]
  split
  . exact ⟨_, rfl⟩
  . split
    . exact ⟨_, rfl⟩
    . exact ⟨_, rfl⟩

/--
Where the step stands, and what the formulas of the links are, after a law on link `i` has been
found to apply: the formulas are as before, or the result takes the place of the formula that the
step leads to, or it is put in at `i`. Only a backward step is moved by that.
-/
inductive Completed (formulas : List Formula) (i : Nat) (direction : Direction)
    (result : Formula) : Nat → List Formula → Prop where
  | unchanged : Completed formulas i direction result i formulas
  | replaced (hdirection : direction = .forward) :
      Completed formulas i direction result i (formulas.set i result)
  | replacedAbove (hdirection : direction = .backward) (hi : 0 < i) :
      Completed formulas i direction result i (formulas.set (i - 1) result)
  | inserted (hdirection : direction = .forward) :
      Completed formulas i direction result i (formulas.insertIdx i result)
  | insertedAbove (hdirection : direction = .backward) :
      Completed formulas i direction result (i + 1) (formulas.insertIdx i result)

def CorrectAt (c : Chain) (k : Nat) (link : Link) : Prop :=
  (∃ l, c.links[k]? = some l ∧ l.Carries link) ∧ c.isCorrect k = .ok true

theorem correctAt_of_forward {l : Link} (hlinks : c.links = before ++ l :: after)
    (hcarries : l.Carries link) (hdirection : link.direction = .forward)
    (hresult : link.result? (c.tip before).1 = some l.formula) :
    c.CorrectAt before.length link := by
  refine ⟨⟨l, ?_, hcarries⟩, ?_⟩
  . rw [hlinks, getElem?_split]
  . rw [isCorrect_split hlinks, hcarries.isCorrect_of_forward hdirection hresult]

theorem correctAt_of_backward {above result : Formula} (hlinks : c.links = before ++ link :: after)
    (hdirection : link.direction = .backward) (hresult : link.result? above = some result)
    (htip : (c.tip before).1 = result) : c.CorrectAt before.length link := by
  subst htip
  refine ⟨⟨link, ?_, ⟨rfl, rfl, rfl⟩⟩, ?_⟩
  . rw [hlinks, getElem?_split]
  . rw [isCorrect_split hlinks, Link.isCorrect_of_backward hdirection hresult]

section Split

variable {fs gs : List Formula} {p result : Formula} {direction : Direction}

theorem completed_replace (hdirection : direction = .forward) :
    Completed (fs ++ p :: gs) fs.length direction result fs.length (fs ++ result :: gs) := by
  have hset : (fs ++ p :: gs).set fs.length result = fs ++ result :: gs := by simp
  exact hset ▸ .replaced hdirection

theorem completed_replaceAbove (hdirection : direction = .backward) :
    Completed (fs ++ p :: gs) (fs.length + 1) direction result (fs.length + 1)
      (fs ++ result :: gs) := by
  have hset : (fs ++ p :: gs).set (fs.length + 1 - 1) result = fs ++ result :: gs := by simp
  exact hset ▸ .replacedAbove hdirection (Nat.succ_pos _)

theorem completed_insert (hdirection : direction = .forward) :
    Completed (fs ++ gs) fs.length direction result fs.length (fs ++ result :: gs) := by
  rw [← insertIdx_split]
  exact .inserted hdirection

theorem completed_insertAbove (hdirection : direction = .backward) :
    Completed (fs ++ gs) fs.length direction result (fs.length + 1) (fs ++ result :: gs) := by
  rw [← insertIdx_split]
  exact .insertedAbove hdirection

end Split

section Step

variable (hlinks : c.links = before ++ old :: after)
include hlinks

theorem completed_of_updated {result : Formula} (hformula : link.formula = old.formula)
    (hdirection : link.direction = old.direction)
    (hresult : link.result? (c.tip before).1 = some result)
    (h : Updated c before after old link next) :
    ∃ k, next.CorrectAt k link
      ∧ Completed (c.links.map Link.formula) before.length old.direction result k
        (next.links.map Link.formula) := by
  have hformulas : c.links.map Link.formula
      = before.map Link.formula ++ old.formula :: after.map Link.formula := by
    rw [hlinks, List.map_append, List.map_cons]
  have hlen : before.length = (before.map Link.formula).length := (List.length_map _).symm
  rw [hformulas]
  cases h with
  | stored hnone => simp [hnone] at hresult
  | rewritten result' hresult' hforward hsource hfree =>
    obtain rfl : result = result' := by simpa [hresult] using hresult'
    refine ⟨before.length, ?_, ?_⟩
    . exact correctAt_of_forward rfl ⟨rfl, rfl, rfl⟩ (hdirection.trans hforward) hresult
    . rw [List.map_append, List.map_cons, hlen]
      exact completed_replace hforward
  | explained hresult' hforward htied =>
    rw [← hformula] at hresult' ⊢
    refine ⟨before.length, ?_, ?_⟩
    . exact correctAt_of_forward rfl ⟨rfl, rfl, rfl⟩ (hdirection.trans hforward) hresult'
    . rw [List.map_append, List.map_cons]
      exact .unchanged
  | inserted result' hresult' hforward hne htied =>
    obtain rfl : result = result' := by simpa [hresult] using hresult'
    refine ⟨before.length, ?_, ?_⟩
    . exact correctAt_of_forward rfl ⟨rfl, rfl, rfl⟩ (hdirection.trans hforward) hresult
    . rw [List.map_append, List.map_cons, List.map_cons, formula_unlink, hlen]
      exact completed_insert hforward
  | rewrittenAbove init above hbefore result' hresult' hbackward hsource hfree =>
    subst hbefore
    obtain rfl : result = result' := by simpa [hresult'] using hresult.symm
    -- A backward step reads its own formula, so the formula above may change under it.
    let new : Link := { above with formula := result, stamp := c.stamp }
    have hnew : (init ++ [above]).length = (init ++ [new]).length := by simp
    have hinit : (init ++ [above]).length = (init.map Link.formula).length + 1 := by simp
    refine ⟨(init ++ [above]).length, ?_, ?_⟩
    . rw [hnew]
      refine correctAt_of_backward (List.append_cons ..) (hdirection.trans hbackward) hresult' ?_
      rw [tip_concat]
    . rw [hinit, List.map_append, List.map_singleton, List.append_assoc, List.singleton_append]
      dsimp only
      rw [List.map_append, List.map_cons, List.map_cons, hformula]
      exact completed_replaceAbove hbackward
  | explainedAbove hresult' hbackward =>
    refine ⟨before.length, ?_, ?_⟩
    . rw [← length_mapLast]
      refine correctAt_of_backward rfl (hdirection.trans hbackward) hresult' ?_
      apply tip_mapLast
      intro l
      rfl
    . rw [List.map_append, List.map_cons, hformula, map_formula_mapLast]
      . exact .unchanged
      . intro l
        rfl
  | insertedAbove result' hresult' hbackward hne =>
    obtain rfl : result = result' := by simpa [hresult] using hresult'
    let new : Link := { Link.new result c.stamp .backward with source := some link.stamp }
    have hnew : before.length + 1 = (mapLast (unlink link.stamp) before ++ [new]).length := by simp
    refine ⟨before.length + 1, ?_, ?_⟩
    . rw [hnew]
      refine correctAt_of_backward (List.append_cons ..) (hdirection.trans hbackward) hresult ?_
      rw [tip_concat]
      rfl
    . rw [List.map_append, List.map_cons, List.map_cons, hformula,
        map_formula_mapLast (formula_unlink _), hlen]
      exact completed_insertAbove hbackward

end Step

/--
A change of law on a link is always accepted. If the law does not apply then only this link changes.
Otherwise its step is correct afterwards, and at most one formula is replaced or put in.
-/
theorem exists_completed_of_change (c : Chain) (i : Nat) (old : Link) (change : Change)
    (hold : c.links[i]? = some old) :
    ∃ next above stamp, c.apply ⟨i, .change change⟩ = .ok next ∧ c.above i = .ok (above, stamp)
      ∧ next.start = c.start ∧ next.goal = c.goal
      ∧ ((changed old change).result? above = none →
        next = { c with links := c.links.set i (changed old change) })
      ∧ ∀ result, (changed old change).result? above = some result →
        ∃ k, next.CorrectAt k (changed old change)
          ∧ Completed (c.links.map Link.formula) i old.direction result k
            (next.links.map Link.formula) := by
  obtain ⟨before, after, hlinks, rfl⟩ := exists_split_of_getElem? hold
  obtain ⟨next, hnext⟩ := exists_update_eq_ok hlinks (changed old change)
  have hupdated := updated_of_update_eq_ok hlinks hnext
  have happly : c.apply ⟨before.length, .change change⟩ = .ok next := by
    unfold apply
    rw [link_split hlinks]
    exact hnext
  obtain ⟨hstart, hgoal⟩ := start_eq_and_goal_eq_of_apply_eq_ok happly
  refine ⟨next, _, _, happly, above_split hlinks, hstart, hgoal, ?_, ?_⟩
  . intro hnone
    rw [update_of_result?_eq_none hlinks hnone, Except.ok.injEq] at hnext
    exact hnext.symm
  . intro result hresult
    exact completed_of_updated hlinks (formula_changed old change) (direction_changed old change)
      hresult hupdated

def backwardStart : Chain where
  start := .var "P"
  startStamp := ⟨0⟩
  goal := .neg (.neg (.var "Q"))
  links := [.new (.neg (.neg (.var "Q"))) ⟨1⟩ .backward]
  stamp := ⟨2⟩

theorem backwardStart_completed :
    (changed (.new (.neg (.neg (.var "Q"))) ⟨1⟩ .backward) (.setLaw (some .doubleNegation))).result?
        (.var "P") = some (.var "Q")
      ∧ ∃ next, backwardStart.apply ⟨0, .change (.setLaw (some .doubleNegation))⟩ = .ok next
        ∧ ∃ k, next.isCorrect k = .ok true
          ∧ Completed [.neg (.neg (.var "Q"))] 0 .backward (.var "Q") k
            (next.links.map Link.formula) := by
  have hresult : (changed (.new (.neg (.neg (.var "Q"))) ⟨1⟩ .backward)
      (.setLaw (some .doubleNegation))).result? (.var "P") = some (.var "Q") := by
    decide +kernel
  obtain ⟨next, above, stamp, happly, habove, -, -, -, hcompleted⟩ :=
    exists_completed_of_change backwardStart 0 _ (.setLaw (some .doubleNegation)) rfl
  have hstart : backwardStart.above 0 = .ok (.var "P", ⟨0⟩) := rfl
  obtain ⟨rfl, rfl⟩ : .var "P" = above ∧ ⟨0⟩ = stamp := by simpa [habove] using hstart.symm
  obtain ⟨k, hcorrect, hk⟩ := hcompleted _ hresult
  exact ⟨hresult, next, happly, k, hcorrect.2, hk⟩

end Chain

end ProofDesk
