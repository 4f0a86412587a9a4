import ProofDesk.Proofs.Edit.Clear
import ProofDesk.Proofs.Stamps

/-!
This module contains the rows around a backward line whose goals are about to be regenerated: what
was generated before has been taken out, and what is left inside the line are weeds.
-/

namespace ProofDesk.Derivation

section Blank

variable {faithful : Prop} {before after : List Row} {row : Row} {line : Line}

theorem not_checks_blank (line : Line) : ¬ Checks (blank line) := by
  intro h
  have := h.2.1
  simp [blank, Step.isComplete, Step.unknown, Step.ofRule, Step.setRule] at this

theorem rule_blank (line : Line) : (blank line).step.rule = none := by
  rfl

theorem replaces_blank {rows : List Row} (h : Retains rows row line)
    (heditable : row.line.editable = true) : Replaces faithful rows row (blank line) where
  fixed := h.fixed
  editable := heditable
  rule := by simp [rule_blank]
  cited := by simp [blank]
  children := by simp [blank]
  head := by simp [blank]
  holds := fun hchecks => absurd hchecks (not_checks_blank line)
  relied := fun _ => .inl h.formula

theorem exists_clearing_blank (faithful : Prop) (hlaid : Laid (before ++ row :: after))
    (hpruned : Pruned (before ++ row :: after)) (h : Retains (before ++ row :: after) row line)
    (heditable : row.line.editable = true) :
    ∃ settled, Clearing faithful (before ++ row :: after)
      (before ++ ⟨row.label, blank line⟩ :: after) settled
      (⟨row.label, blank line⟩ :: after) before.length := by
  -- The rows inside a line are weeds as soon as it is blank.
  have hreplace : Revision faithful _ _ := .replace before after row _ (replaces_blank h heditable)
  have hbefore := hlaid.ne_nil_of_editable heditable
  obtain ⟨outer, inner, rfl, houter, hinner⟩ := hlaid.ordered.exists_split_isInside
  have hne := outer_ne_nil hlaid hbefore hinner
  refine ⟨outer, ?_, hne, .tail (.single hreplace) ?_, ?_⟩
  . refine ⟨inner, _, by simp, by simp, ?_, Overgrown.refl _⟩
    intro weed hweed
    exact ⟨_, rfl, by simp [rule_blank], hinner weed hweed⟩
  . apply Revision.drop
    . exact List.Sublist.append (List.sublist_append_left ..) (List.Sublist.refl _)
    . obtain ⟨first, outer, rfl⟩ := List.exists_cons_of_ne_nil hne
      rfl
    . rw [List.getLast?_append_of_ne_nil _ (by simp), List.getLast?_append_of_ne_nil _ (by simp)]
    . intro x hx l hl
      have hx : x ∈ outer ++ after := by
        simp only [List.mem_append, List.mem_cons] at hx ⊢
        rcases hx with hx | rfl | hx
        . exact .inl hx
        . simp [blank] at hl
        . exact .inr hx
      by_cases heq : l = row.label
      . exact ⟨⟨row.label, blank line⟩, by simp, heq.symm⟩
      . obtain ⟨r, hr, hrl⟩ := hlaid.mem_kept_of_cited hinner (fun _ => houter) hx hl heq
        refine ⟨r, ?_, hrl⟩
        simp only [List.mem_append, List.mem_cons] at hr ⊢
        exact hr.imp_right .inr
  . have hcases : ∀ x ∈ outer ++ ⟨row.label, blank line⟩ :: after,
        x ∈ outer ++ after ∨ x.label = row.label := by
      intro x hx
      simp only [List.mem_append, List.mem_cons] at hx ⊢
      grind
    intro r hr hrule x hx
    cases hcases r hr with
    | inl hr =>
      cases hcases x hx with
      | inl hx => exact hpruned r (mem_of_kept hr) hrule x (mem_of_kept hx)
      | inr hx => rw [hx, hpruned r (mem_of_kept hr) hrule row (by simp)]
    | inr hr =>
      rw [hr]
      cases hcases x hx with
      | inl hx =>
        cases List.mem_append.mp hx with
        | inl hx => exact houter x hx
        | inr hx => exact hlaid.ordered.not_isInside_of_mem_right hx
      | inr hx => rw [hx, Label.isInside_irrefl]

end Blank

section Swap

variable {before : List Row} (after : List Row) (label : Label) (line other : Line)
  (hother : other.arguments = [])
include hother

theorem exists_removeRow_eq {j : Nat} (hj : j < before.length) :
    ∃ before' after' label' arguments,
      removeRow (before ++ ⟨label, line⟩ :: after) j
          = before' ++ ⟨label', { line with arguments }⟩ :: after'
        ∧ removeRow (before ++ ⟨label, other⟩ :: after) j = before' ++ ⟨label', other⟩ :: after'
        ∧ before'.length = before.length - 1 := by
  -- Taking out a row does not depend on the line of a later row.
  obtain ⟨before₁, before₂, hbefore, hlen⟩ := exists_split_of_getElem? (List.getElem?_eq_getElem hj)
  generalize before[j] = r at hbefore
  subst hbefore hlen
  refine ⟨before₁.map (Row.forget r.label) ++ before₂.map (closeUp r.label),
    after.map (closeUp r.label), label.shift r.label (-1),
    (closeUp r.label ⟨label, line⟩).line.arguments, ?_, ?_, by simp⟩
  . rw [List.append_assoc, List.cons_append, removeRow_split]
    simp [closeUp, Row.shift, Row.forget]
  . have hrow : closeUp r.label ⟨label, other⟩ = ⟨label.shift r.label (-1), other⟩ :=
      closeUp_eq_of_arguments_eq_nil hother r.label
    rw [List.append_assoc, List.cons_append, removeRow_split, List.map_append, List.map_cons, hrow]
    simp

theorem exists_removeAround_eq {doomed : List Nat} (hsorted : doomed.Pairwise (· < ·))
    (hdoomed : ∀ j ∈ doomed, j < before.length) :
    ∃ before' after' label' arguments,
      removeAround (before ++ ⟨label, line⟩ :: after) before.length doomed
          = (before' ++ ⟨label', { line with arguments }⟩ :: after', before'.length)
        ∧ removeAround (before ++ ⟨label, other⟩ :: after) before.length doomed
          = (before' ++ ⟨label', other⟩ :: after', before'.length)
        ∧ doomed.headD before.length ≤ before'.length := by
  induction doomed with
  | nil => exact ⟨before, after, label, line.arguments, rfl, rfl, Nat.le_refl _⟩
  | cons j doomed ih =>
    simp only [List.mem_cons, forall_eq_or_imp] at hdoomed
    obtain ⟨hfirst, hsorted⟩ := List.pairwise_cons.mp hsorted
    obtain ⟨before', after', label', arguments, heq, heq', hle⟩ := ih hsorted hdoomed.2
    have hj : j < before'.length := by
      apply Nat.lt_of_lt_of_le _ hle
      cases doomed with
      | nil => exact hdoomed.1
      | cons k doomed => exact hfirst k List.mem_cons_self
    have hne : j ≠ before'.length := by omega
    obtain ⟨before'', after'', label'', arguments', hremove, hremove', hlen⟩ :=
      exists_removeRow_eq after' label' { line with arguments } other hother hj
    refine ⟨before'', after'', label'', arguments', ?_, ?_, ?_⟩
    . rw [removeAround, List.foldr_cons, ← removeAround, heq]
      simp only [if_neg hne, if_pos hj, hremove, hlen]
    . rw [removeAround, List.foldr_cons, ← removeAround, heq']
      simp only [if_neg hne, if_pos hj, hremove', hlen]
    . simp only [List.headD_cons]
      omega

end Swap

structure Pinned (faithful : Prop) (origin : List Row) (pin : Row)
    (earlier later before weeds after : List Row) : Prop where
  revised : Revised faithful origin (earlier ++ pin :: later)
  pruned : Pruned (earlier ++ pin :: later)
  overgrown_before : Overgrown earlier before
  inside : ∀ weed ∈ weeds, weed.label.isInside pin.label
  overgrown_after : Overgrown later after
  head? : before.head? = earlier.head?
  ne_nil : earlier ≠ []

theorem Yields.exists_pinned {faithful : Prop} {origin live before after : List Row} {pin : Row}
    (h : Yields faithful origin live (before ++ pin :: after)) (hlaid : Laid origin)
    (hpruned : Pruned live) (hpin : pin ∈ live) (hbefore : before ≠ []) :
    ∃ earlier later before' weeds, before = before' ++ weeds
      ∧ Pinned faithful origin pin earlier later before' weeds after := by
  obtain ⟨first, live', rows, rfl, hrows, hover⟩ :=
    h.overgrown.exists_eq_cons (hlaid.of_revised h.revised) h.head?
  obtain ⟨b, before, rfl⟩ := List.exists_cons_of_ne_nil hbefore
  obtain ⟨rfl, rfl⟩ := List.cons_eq_cons.mp hrows
  have hlive : ∀ h ∈ live', h.line.step.rule ≠ some .directProof →
      pin.label.isInside h.label = false :=
    fun h hh hrule => hpruned h (List.mem_cons_of_mem _ hh) hrule pin hpin
  obtain ⟨earlier, later, before', weeds, rfl, rfl, hearlier, hweeds, hlater⟩ :=
    hover.exists_split hlive
  refine ⟨b :: earlier, later, b :: before', weeds, rfl, h.revised, hpruned, .live b hearlier, ?_,
    hlater, rfl, by simp⟩
  intro weed hweed
  obtain ⟨header, hheader, -, hin⟩ := hweeds weed hweed
  have : pin = header := by simpa using hheader
  rwa [this]

section Pin

variable (faithful : Prop) {before after : List Row} {row : Row} {line : Line} {stamp : Stamp}
  (hlaid : Laid (before ++ row :: after)) (hcoherent : Coherent stamp (before ++ row :: after))
include hlaid hcoherent

theorem mem_generated_bounds {j : Nat}
    (hj : j ∈ generated (before ++ row :: after) row.line.stamp) : 0 < j ∧ j < before.length := by
  refine ⟨?_, hcoherent.lt_of_mem_generated (getElem?_split row) hj⟩
  obtain ⟨r, hr, hsource⟩ := exists_source_of_mem_reachedWithin hj
  obtain ⟨first, hfirst, -, -, -, hnone⟩ := hlaid.first
  apply Nat.pos_of_ne_zero
  rintro rfl
  rw [List.head?_eq_getElem?, hr, Option.some.injEq] at hfirst
  simp [hfirst, hnone] at hsource

theorem exists_pinned (hpruned : Pruned (before ++ row :: after))
    (h : Retains (before ++ row :: after) row line) (heditable : row.line.editable = true)
    (hclash : clashesAround (before ++ ⟨row.label, blank line⟩ :: after) before.length
      (generated (before ++ row :: after) row.line.stamp) = false) :
    ∃ earlier later before' weeds after' label arguments,
      removeAround (before ++ ⟨row.label, line⟩ :: after) before.length
          (generated (before ++ row :: after) row.line.stamp)
          = (before' ++ weeds ++ ⟨label, { line with arguments }⟩ :: after',
            (before' ++ weeds).length)
        ∧ Pinned faithful (before ++ row :: after) ⟨label, blank line⟩ earlier later before' weeds
          after' := by
  have hbounds := fun j hj => mem_generated_bounds hlaid hcoherent (j := j) hj
  have hsorted : (generated (before ++ row :: after) row.line.stamp).Pairwise (· < ·) :=
    pairwise_reachedWithin ..
  have hbefore := List.length_pos_iff.mpr (hlaid.ne_nil_of_editable heditable)
  generalize generated (before ++ row :: after) row.line.stamp = doomed at *
  obtain ⟨settled, hstart⟩ := exists_clearing_blank faithful hlaid hpruned h heditable
  obtain ⟨settled', live, pin, hcleared, -, hpin, hmem, hline⟩ := hstart.removeAround hlaid
    (getElem?_split _) List.mem_cons_self rfl hsorted hbounds hclash
  obtain ⟨before', after', label, arguments, heq, heq', hle⟩ := exists_removeAround_eq after
    row.label line (blank line) rfl hsorted fun j hj => (hbounds j hj).2
  rw [heq'] at hcleared hpin
  rw [getElem?_split, Option.some.injEq] at hpin
  subst hpin
  have hbefore' : before' ≠ [] := by
    apply List.ne_nil_of_length_pos
    apply Nat.lt_of_lt_of_le _ hle
    cases doomed with
    | nil => exact hbefore
    | cons j doomed => exact (hbounds j List.mem_cons_self).1
  obtain ⟨earlier, later, before'', weeds, rfl, hpinned⟩ := hcleared.yields.exists_pinned hlaid
    hcleared.pruned (List.mem_append_right _ hmem) hbefore'
  exact ⟨earlier, later, before'', weeds, after', label, arguments, heq, hpinned⟩

end Pin

end ProofDesk.Derivation
