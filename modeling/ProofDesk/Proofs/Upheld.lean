import ProofDesk.Proofs.Revision

/-!
This module contains the agreement of backward lines with what they cite. It is kept by faithful
revisions: a line is rewritten only if no other line is checked against it.
-/

namespace ProofDesk.Derivation

def Upheld (rows : List Row) : Prop :=
  ∀ row ∈ rows, Checks row.line → ∀ goals, row.line.step.reduce [row.line.formula] = .ok goals →
    HoldGoals rows goals row.line.arguments

theorem HoldGoals.of_map {rows rows' : List Row} {goals : List Formula}
    {args : List (Option Label)} {f : Option Label → Option Label} (hnone : f none = none)
    (hsome : ∀ label ∈ leading args, ∀ label', f (some label) = some label' →
      ∀ row ∈ rows, row.label = label →
        ∃ row' ∈ rows', row'.label = label' ∧ row'.line.formula = row.line.formula)
    (h : HoldGoals rows goals args) : HoldGoals rows' goals (args.map f) := by
  induction goals generalizing args with
  | nil => trivial
  | cons goal goals ih =>
    cases args with
    | nil => trivial
    | cons arg args =>
      cases arg with
      | none =>
        rw [List.map_cons, hnone]
        trivial
      | some label =>
        rw [List.map_cons]
        cases hf : f (some label) with
        | none => trivial
        | some label' =>
          obtain ⟨⟨row, hrow, hlabel, hgoal⟩, h⟩ := h
          obtain ⟨row', hrow', hlabel', hformula⟩ := hsome label (by simp [leading]) label' hf row
            hrow hlabel
          refine ⟨⟨row', hrow', hlabel', by rw [hformula, hgoal]⟩, ?_⟩
          apply ih _ h
          intro l hl
          exact hsome l (by simp [leading, hl])

theorem HoldGoals.of_rows {rows rows' : List Row} {goals : List Formula}
    {args : List (Option Label)}
    (hrows : ∀ row ∈ rows, row.label ∈ leading args →
      ∃ row' ∈ rows', row'.label = row.label ∧ row'.line.formula = row.line.formula)
    (h : HoldGoals rows goals args) : HoldGoals rows' goals args := by
  rw [← List.map_id args]
  refine h.of_map rfl ?_
  rintro label hlabel label' heq row hrow rfl
  obtain rfl : row.label = label' := by simpa using heq
  exact hrows row hrow hlabel

theorem mem_of_mem_leading {args : List (Option Label)} {label : Label}
    (h : label ∈ leading args) : some label ∈ args := by
  induction args with
  | nil => simp [leading] at h
  | cons arg args ih =>
    cases arg with
    | none => simp [leading] at h
    | some l =>
      simp only [leading, List.mem_cons] at h
      cases h with
      | inl h => simp [h]
      | inr h => exact List.mem_cons_of_mem _ (ih h)

namespace Upheld

variable {faithful : Prop} {rows rows' : List Row}

theorem forget (h : Upheld rows) (labels : List Label) :
    Upheld (rows.map (forgetAll labels)) := by
  unfold Upheld
  simp only [List.forall_mem_map, forgetAll_eq]
  intro row hrow hchecks goals hreduce
  refine (h row hrow hchecks goals hreduce).of_map rfl ?_
  rintro label - label' heq r hr rfl
  obtain ⟨heq, -⟩ := Option.filter_eq_some_iff.mp heq
  exact ⟨forgetAll labels r, List.mem_map_of_mem hr, by simpa using heq, by rw [forgetAll_eq]⟩

theorem drop (h : Upheld rows) (hlaid : Laid rows) {kept : List Row} (hsub : kept ⊆ rows)
    (hcited : ∀ row ∈ kept, ∀ label, some label ∈ row.line.arguments →
      ∃ r ∈ kept, r.label = label) : Upheld kept := by
  intro row hrow hchecks goals hreduce
  refine (h row (hsub hrow) hchecks goals hreduce).of_rows ?_
  intro r hr hlabel
  obtain ⟨r', hr', heq⟩ := hcited row hrow r.label (mem_of_mem_leading hlabel)
  have : r' = r := hlaid.ordered.eq_of_label_eq (hsub hr') hr heq
  exact ⟨r', hr', heq, by rw [this]⟩

theorem renumber (h : Upheld rows) (rename : Label → Label) :
    Upheld (rows.map (relabel rename)) := by
  unfold Upheld
  simp only [List.forall_mem_map]
  intro row hrow hchecks goals hreduce
  refine (h row hrow hchecks goals hreduce).of_map rfl ?_
  rintro label - label' heq r hr rfl
  exact ⟨relabel rename r, List.mem_map_of_mem hr, by simpa [relabel] using heq, rfl⟩

theorem insert {before new after : List Row} (h : Upheld (before ++ after))
    (hinserts : Inserts before new after) : Upheld (before ++ new ++ after) := by
  intro row hrow hchecks goals hreduce
  cases mem_of_mem_inserted hrow with
  | inl hrow =>
    refine (h row hrow hchecks goals hreduce).of_rows ?_
    intro r hr _
    refine ⟨r, ?_, rfl, rfl⟩
    simp only [List.mem_append] at hr ⊢
    grind
  | inr hrow =>
    cases hinserts.idle row hrow hchecks.1 with
    | inl hnone =>
      have := hchecks.2.1
      simp [Step.isComplete, hnone] at this
    | inr hassumption =>
      rw [hassumption.2]
      unfold HoldGoals
      split <;> simp_all

theorem replace {before after : List Row} {row : Row} {line : Line}
    (h : Upheld (before ++ row :: after)) (hlaid : Laid (before ++ row :: after))
    (hreplaces : Replaces faithful (before ++ row :: after) row line) (hfaithful : faithful) :
    Upheld (before ++ ⟨row.label, line⟩ :: after) := by
  have hother : ∀ r ∈ before ++ row :: after, r.label ≠ row.label →
      r ∈ before ++ ⟨row.label, line⟩ :: after := by
    intro r hr hne
    simp only [List.mem_append, List.mem_cons] at hr ⊢
    grind
  intro r hr hchecks goals hreduce
  rcases mem_of_mem_replaced row hr with hr | rfl
  . refine (h r hr hchecks goals hreduce).of_rows ?_
    intro c hc hlabel
    by_cases heq : c.label = row.label
    . have : c = row := hlaid.ordered.eq_of_label_eq hc (by simp) heq
      subst this
      cases hreplaces.relied hfaithful with
      | inl hformula => exact ⟨⟨c.label, line⟩, by simp, rfl, hformula⟩
      | inr hnot => exact absurd hlabel (hnot r hr hchecks)
    . exact ⟨c, hother c hc heq, rfl, rfl⟩
  . -- The new line does not cite itself.
    obtain ⟨goals', hreduce', hholds⟩ := hreplaces.holds hchecks
    obtain rfl : goals' = goals := by simpa [hreduce'] using hreduce
    refine hholds.of_rows ?_
    intro c hc hlabel
    refine ⟨c, hother c hc ?_, rfl, rfl⟩
    intro heq
    cases (hreplaces.cited c.label (mem_of_mem_leading hlabel)).2 with
    | inl hvisible => simpa [heq, Label.before_irrefl] using Label.before_of_visibleAt hvisible
    | inr hchild =>
      obtain ⟨k, hk⟩ := hchild
      exact Label.child_ne row.label k (by rw [← hk, heq])

theorem touch (h : Upheld rows) (htouched : List.Forall₂ Touched rows rows') : Upheld rows' := by
  intro r hr hchecks goals hreduce
  obtain ⟨row, hrow, ht⟩ := exists_left_of_forall₂ htouched hr
  have hchecks' : Checks row.line := by rwa [Checks, ← ht.step, ← ht.formula]
  rw [ht.step, ht.formula] at hreduce
  rw [ht.arguments]
  refine (h row hrow hchecks' goals hreduce).of_rows ?_
  intro c hc _
  obtain ⟨c', hc', ht'⟩ := exists_left_of_forall₂ htouched.flip hc
  exact ⟨c', hc', ht'.label, ht'.formula⟩

theorem of_revision (h : Upheld rows) (hlaid : Laid rows) (hfaithful : faithful)
    (hrevision : Revision faithful rows rows') : Upheld rows' := by
  cases hrevision with
  | forget _ labels => exact h.forget labels
  | drop _ _ hsub _ _ hcited => exact h.drop hlaid hsub.subset hcited
  | renumber _ rename _ => exact h.renumber rename
  | insert _ _ _ hinserts => exact h.insert hinserts
  | replace _ _ _ _ hreplaces => exact h.replace hlaid hreplaces hfaithful
  | touch _ _ htouched => exact h.touch htouched

theorem of_revised (h : Upheld rows) (hlaid : Laid rows) (hfaithful : faithful)
    (hrevised : Revised faithful rows rows') : Upheld rows' := by
  induction hrevised with
  | refl => exact h
  | tail hrevised hrevision ih =>
    exact ih.of_revision (hlaid.of_revised hrevised) hfaithful hrevision

end Upheld

end ProofDesk.Derivation
