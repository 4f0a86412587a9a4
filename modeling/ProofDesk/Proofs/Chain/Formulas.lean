import ProofDesk.Proofs.Chain.Cases
import ProofDesk.Proofs.Law.Rewrites

/-!
This module contains where the formulas of a chain come from. After an edit each of them was in the
chain before or comes from one that was by the use of a law, so what holds of start and goal and is
kept by every law holds of all formulas after any run.
-/

namespace ProofDesk

theorem Link.rewrites_of_result?_eq_some {link : Link} {above result : Formula}
    (h : link.result? above = some result) :
    link.reading.Rewrites (link.subject above) result := by
  unfold result? at h
  split at h
  . simp only [Option.some.injEq] at h
    rw [← h]
    apply Reading.rewrites_atChosen
  . simp at h

theorem Link.subject_eq_or (link : Link) (above : Formula) :
    link.subject above = above ∨ link.subject above = link.formula := by
  unfold subject
  split <;> simp

namespace Chain

def formulas (c : Chain) : List Formula :=
  c.start :: c.links.map Link.formula

def Yields (c : Chain) (p : Formula) : Prop :=
  ∃ q ∈ c.formulas, ∃ r : Reading, r.Rewrites q p

variable {c next : Chain} {before after : List Link} {old link : Link}

theorem yields_of_mem {p : Formula} (h : p ∈ c.formulas) : c.Yields p :=
  ⟨p, h, .unset, .refl p⟩

theorem map_formula_mapLast {f : Link → Link} (hf : ∀ link, (f link).formula = link.formula)
    (links : List Link) : (mapLast f links).map Link.formula = links.map Link.formula := by
  obtain rfl | ⟨init, last, rfl⟩ := List.eq_nil_or_concat' links
  . rfl
  . simp [hf]

theorem tip_mem_formulas (hlinks : c.links = before ++ after) : (c.tip before).1 ∈ c.formulas := by
  rw [formulas, hlinks]
  obtain rfl | ⟨init, last, rfl⟩ := List.eq_nil_or_concat' before
  . simp
  . simp

theorem forall_formulas_split {motive : Formula → Prop}
    (hlinks : c.links = before ++ link :: after) :
    (∀ p ∈ c.formulas, motive p)
      ↔
    motive c.start ∧ (∀ p ∈ before.map Link.formula, motive p) ∧ motive link.formula
      ∧ ∀ p ∈ after.map Link.formula, motive p := by
  rw [formulas, hlinks, List.forall_mem_cons, List.map_append, List.forall_mem_append,
    List.map_cons, List.forall_mem_cons]

section Step

variable (hlinks : c.links = before ++ old :: after)
include hlinks

theorem yields_result (hcopy : link.formula = old.formula) {result : Formula}
    (hresult : link.result? (c.tip before).1 = some result) : c.Yields result := by
  refine ⟨_, ?_, _, link.rewrites_of_result?_eq_some hresult⟩
  cases link.subject_eq_or (c.tip before).1 with
  | inl habove =>
    rw [habove]
    exact tip_mem_formulas hlinks
  | inr hown =>
    rw [hown, hcopy, formulas, hlinks]
    simp

theorem yields_of_updated (hcopy : link.formula = old.formula)
    (h : Updated c before after old link next) : ∀ p ∈ next.formulas, c.Yields p := by
  obtain ⟨hstart, hbefore, hold, hafter⟩ :=
    (forall_formulas_split hlinks).mp fun _ => yields_of_mem
  have hlink : c.Yields link.formula := hcopy ▸ hold
  have hyields : ∀ result, link.result? (c.tip before).1 = some result → c.Yields result :=
    fun _ => yields_result hlinks hcopy
  cases h with
  | stored | explained =>
    rw [forall_formulas_split rfl]
    exact ⟨hstart, hbefore, hlink, hafter⟩
  | rewritten result hresult =>
    rw [forall_formulas_split rfl]
    exact ⟨hstart, hbefore, hyields result hresult, hafter⟩
  | inserted result hresult =>
    rw [forall_formulas_split rfl, List.map_cons, List.forall_mem_cons, formula_unlink]
    exact ⟨hstart, hbefore, hyields result hresult, hold, hafter⟩
  | rewrittenAbove init above hconcat result hresult =>
    subst hconcat
    rw [List.map_append, List.forall_mem_append] at hbefore
    rw [tip_concat] at hyields
    rw [forall_formulas_split rfl, List.map_cons, List.forall_mem_cons]
    exact ⟨hstart, hbefore.1, hyields result hresult, hlink, hafter⟩
  | explainedAbove =>
    rw [forall_formulas_split rfl, map_formula_mapLast]
    . exact ⟨hstart, hbefore, hlink, hafter⟩
    . intro l
      rfl
  | insertedAbove result hresult =>
    rw [forall_formulas_split rfl, map_formula_mapLast (formula_unlink _), List.map_cons,
      List.forall_mem_cons]
    exact ⟨hstart, hbefore, hyields result hresult, hlink, hafter⟩

end Step

theorem yields_of_apply_eq_ok {edit : Edit} (h : c.apply edit = .ok next) :
    ∀ p ∈ next.formulas, c.Yields p := by
  obtain ⟨before, link, after, hlinks, -, happlied⟩ := exists_applied_of_apply_eq_ok h
  obtain ⟨hstart, hbefore, hlink, hafter⟩ :=
    (forall_formulas_split hlinks).mp fun _ => yields_of_mem
  generalize edit.action = action at happlied
  cases happlied with
  | toggled | turnedBackward =>
    rw [forall_formulas_split rfl]
    exact ⟨hstart, hbefore, hlink, hafter⟩
  | turnedForward =>
    rw [forall_formulas_split rfl, map_formula_mapLast (formula_unlink _)]
    exact ⟨hstart, hbefore, hlink, hafter⟩
  | deleted hne =>
    obtain ⟨l, after, rfl⟩ := List.exists_cons_of_ne_nil hne
    rw [List.map_cons, List.forall_mem_cons] at hafter
    rw [List.modifyHead_cons, forall_formulas_split rfl, map_formula_mapLast (formula_unlink _),
      formula_unlink]
    exact ⟨hstart, hbefore, hafter⟩
  | changed change next hnext => exact yields_of_updated hlinks (formula_changed link change) hnext

theorem start_eq_and_goal_eq_of_apply_eq_ok {edit : Edit} (h : c.apply edit = .ok next) :
    next.start = c.start ∧ next.goal = c.goal := by
  obtain ⟨before, link, after, -, -, happlied⟩ := exists_applied_of_apply_eq_ok h
  generalize edit.action = action at happlied
  cases happlied with
  | toggled | turnedBackward | turnedForward | deleted => exact ⟨rfl, rfl⟩
  | changed change next hnext => cases hnext <;> exact ⟨rfl, rfl⟩

theorem start_eq_and_goal_eq_of_applyAll {d : Chain} {edits : List Edit}
    (happly : c.applyAll edits = .ok d) : d.start = c.start ∧ d.goal = c.goal := by
  refine Run.result_induction (motive := fun d _ => d.start = c.start ∧ d.goal = c.goal) ?_
    ⟨rfl, rfl⟩ happly
  intro d edit edits next ⟨hstart, hgoal⟩ hnext
  obtain ⟨hstart', hgoal'⟩ := start_eq_and_goal_eq_of_apply_eq_ok hnext
  exact ⟨hstart'.trans hstart, hgoal'.trans hgoal⟩

theorem forall_formulas_of_applyAll {motive : Formula → Prop}
    (hkeeps : ∀ (r : Reading) p q, r.Rewrites p q → motive p → motive q) {d : Chain}
    {edits : List Edit} (h : ∀ p ∈ c.formulas, motive p) (happly : c.applyAll edits = .ok d) :
    ∀ p ∈ d.formulas, motive p := by
  refine Run.result_induction (motive := fun d _ => ∀ p ∈ d.formulas, motive p) ?_ h happly
  intro d edit edits next h hnext p hp
  obtain ⟨q, hq, r, hr⟩ := yields_of_apply_eq_ok hnext p hp
  exact hkeeps r q p hr (h q hq)

end Chain

end ProofDesk
