import ProofDesk.Proofs.Chain.Cases

/-!
This module contains what becomes of the goal of a chain over a whole run. The last link cannot be
deleted, but it may take over another formula: once it is known to follow from the formula above, a
change of its law changes its formula. No other edit takes the goal away.
-/

namespace ProofDesk.Chain

def lastFormula? (c : Chain) : Option Formula :=
  c.links.getLast?.map Link.formula

/--
Whether an edit gives the last link another formula. The link goes forward and comes from the
formula above, and its law is changed to one that gives something else there.
-/
def rewritesLast (c : Chain) (edit : Edit) : Bool :=
  match c.links[edit.line]?, c.above? edit.line, edit.action with
  | some link, some (above, stamp), .change change =>
    edit.line + 1 == c.links.length && link.direction == .forward && link.source == some stamp
      && ((changed link change).result? above).any (· != link.formula)
  | _, _, _ => false

section Step

variable {c next : Chain} {before after : List Link} {link : Link}

theorem formula_getLast?_split (before after : List Link) (link : Link) :
    (before ++ link :: after).getLast?.map Link.formula
      =
    some ((after.getLast?.map Link.formula).getD link.formula) := by
  rw [List.getLast?_append_of_ne_nil _ (by simp), List.getLast?_cons]
  cases after.getLast? <;> rfl

theorem rewritesLast_split (hlinks : c.links = before ++ link :: after) (change : Change) :
    c.rewritesLast ⟨before.length, .change change⟩
      =
    (after.isEmpty && link.direction == .forward && link.source == some (c.tip before).2
      && ((changed link change).result? (c.tip before).1).any (· != link.formula)) := by
  have hlast : (before.length + 1 == c.links.length) = after.isEmpty := by
    cases after <;> simp [hlinks]
  have hlink : c.links[before.length]? = some link := by rw [hlinks, getElem?_split]
  simp only [rewritesLast, hlink, above?_split hlinks, hlast]

theorem lastFormula?_of_updated {change : Change} (hlinks : c.links = before ++ link :: after)
    (h : Updated c before after link (changed link change) next) :
    next.lastFormula? = c.lastFormula?
      ↔
    c.rewritesLast ⟨before.length, .change change⟩ = false := by
  simp only [rewritesLast_split hlinks, lastFormula?, hlinks, formula_getLast?_split]
  cases h with
  | stored hresult =>
    simp only [formula_getLast?_split, formula_changed]
    simp [hresult]
  | rewritten result hresult hdirection hsource hfree =>
    simp only [formula_getLast?_split]
    cases after with
    | nil => simp_all
    | cons l after => simp [List.getLast?_cons]
  | explained hresult hdirection htied =>
    simp only [formula_getLast?_split, formula_changed]
    simp [hresult]
  | inserted result hresult hdirection hformula htied =>
    rw [List.append_cons]
    simp only [formula_getLast?_split, formula_unlink, true_iff]
    -- A link that is tied to the one below it is not the last.
    rw [source_changed] at htied
    by_cases hsource : link.source = some (c.tip before).2
    . obtain ⟨l, hl, -⟩ := htied hsource
      cases after with
      | nil => simp at hl
      | cons l after => simp
    . simp [hsource]
  | rewrittenAbove init above hbefore result hresult hdirection hsource hfree =>
    rw [List.append_cons]
    simp only [formula_getLast?_split, formula_changed]
    simp [hdirection]
  | explainedAbove hresult hdirection =>
    simp only [formula_getLast?_split, formula_changed]
    simp [hdirection]
  | insertedAbove result hresult hdirection hformula =>
    rw [List.append_cons]
    simp only [formula_getLast?_split, formula_changed]
    simp [hdirection]

theorem links_ne_nil_of_apply_eq_ok {edit : Edit} (h : c.apply edit = .ok next) :
    next.links ≠ [] := by
  obtain ⟨before, link, after, -, -, happlied⟩ := exists_applied_of_apply_eq_ok h
  generalize edit.action = action at happlied
  cases happlied with
  | toggled => simp
  | turnedBackward hdirection => simp
  | turnedForward hdirection => simp
  | deleted hafter => simp [hafter]
  | changed change next hnext => cases hnext <;> simp

theorem lastFormula?_of_apply_eq_ok {edit : Edit} (h : c.apply edit = .ok next) :
    next.lastFormula? = c.lastFormula? ↔ c.rewritesLast edit = false := by
  obtain ⟨before, link, after, hlinks, hline, happlied⟩ := exists_applied_of_apply_eq_ok h
  have hedit : edit = ⟨before.length, edit.action⟩ := by rw [hline]
  rw [hedit]
  generalize edit.action = action at *
  cases happlied with
  | toggled =>
    simp only [lastFormula?, hlinks, formula_getLast?_split]
    simp [rewritesLast]
  | turnedBackward hdirection =>
    simp only [lastFormula?, hlinks, formula_getLast?_split]
    simp [rewritesLast]
  | turnedForward hdirection =>
    simp only [lastFormula?, hlinks, formula_getLast?_split]
    simp [rewritesLast]
  | deleted hafter =>
    obtain ⟨l, after, rfl⟩ := List.exists_cons_of_ne_nil hafter
    rw [List.append_cons] at hlinks
    simp only [lastFormula?, hlinks, List.modifyHead_cons, formula_getLast?_split, formula_unlink]
    simp [rewritesLast]
  | changed change next hnext => exact lastFormula?_of_updated hlinks hnext

end Step

theorem lastFormula?_of_throughout {c next : Chain} {edits : List Edit}
    (htest : throughout (fun c edit => !c.rewritesLast edit) c edits = true)
    (happly : c.applyAll edits = .ok next) : next.lastFormula? = c.lastFormula? := by
  refine Run.throughout_induction (motive := fun d => d.lastFormula? = c.lastFormula?) ?_ rfl htest
    happly
  intro d edit between hlast htest hbetween
  rw [Bool.not_eq_true'] at htest
  exact ((lastFormula?_of_apply_eq_ok hbetween).mpr htest).trans hlast

theorem links_ne_nil_of_applyAll {c next : Chain} {edits : List Edit} (h : c.links ≠ [])
    (happly : c.applyAll edits = .ok next) : next.links ≠ [] :=
  Run.result_induction (motive := fun c _ => c.links ≠ [])
    (fun _ _ _ _ _ happly => links_ne_nil_of_apply_eq_ok happly) h happly

/--
After every run a chain has links, and without a rewriting of the last one it leads to the goal. The
next edit takes the goal away if and only if it rewrites the last link.
-/
theorem lastFormula?_eq_goal_of_applyAll (start goal : Formula) (edits : List Edit) (c : Chain)
    (happly : (begin start goal).applyAll edits = .ok c) :
    c.links ≠ []
      ∧ (throughout (fun c edit => !c.rewritesLast edit) (begin start goal) edits = true →
        c.lastFormula? = some goal
          ∧ ∀ edit next, c.apply edit = .ok next →
            (next.lastFormula? = some goal ↔ c.rewritesLast edit = false)) := by
  refine ⟨links_ne_nil_of_applyAll (by simp [begin]) happly, ?_⟩
  intro htest
  have hlast : c.lastFormula? = some goal := lastFormula?_of_throughout htest happly
  refine ⟨hlast, ?_⟩
  intro edit next hnext
  rw [← hlast]
  exact lastFormula?_of_apply_eq_ok hnext

def identityStart : Chain :=
  begin (.neg (.neg (.conj (.var "P") (.const true)))) (.var "P")

def identityEdits : List Edit :=
  [⟨0, .change (.setLaw (some .doubleNegation))⟩,
    ⟨1, .change (.setLaw (some .identity))⟩,
    ⟨0, .change (.setChosen (some 0))⟩]

theorem identityEdits_lead_to_goal :
    throughout (fun c edit => !c.rewritesLast edit) identityStart identityEdits = true
      ∧ ∃ c, identityStart.applyAll identityEdits = .ok c ∧ c.isSolved = true
        ∧ c.links ≠ [] ∧ c.lastFormula? = some (.var "P") := by
  have htest : throughout (fun c edit => !c.rewritesLast edit) identityStart identityEdits
      = true := by
    decide +kernel
  have hsolved : (identityStart.applyAll identityEdits).toOption.map isSolved = some true := by
    decide +kernel
  obtain ⟨c, happly, hsolved⟩ := exists_of_map_toOption_eq_some hsolved
  obtain ⟨hlinks, hlast⟩ := lastFormula?_eq_goal_of_applyAll _ _ identityEdits c happly
  exact ⟨htest, c, happly, hsolved, hlinks, (hlast htest).1⟩

theorem explained_goal_lost :
    ∃ c, (begin (.conj (.var "P") (.const true)) (.var "P")).applyAll
        [⟨0, .change (.setLaw (some .identity))⟩, ⟨0, .change (.setLaw (some .commutativity))⟩]
        = .ok c
      ∧ c.lastFormula? = some (.conj (.const true) (.var "P"))
      ∧ ¬ (c.links ≠ [] ∧ c.lastFormula? = some (.var "P")) := by
  have hlast : ((begin (.conj (.var "P") (.const true)) (.var "P")).applyAll
        [⟨0, .change (.setLaw (some .identity))⟩, ⟨0, .change (.setLaw (some .commutativity))⟩]
        ).toOption.map lastFormula? = some (some (.conj (.const true) (.var "P"))) := by
    decide +kernel
  obtain ⟨c, happly, hlast⟩ := exists_of_map_toOption_eq_some hlast
  refine ⟨c, happly, hlast, ?_⟩
  simp [hlast]

end ProofDesk.Chain
