import ProofDesk.Proofs.Edit.Expand
import ProofDesk.Proofs.Edit.Record

/-!
This module contains the invariant of orderly editing: every orderly edit is a sequence of
revisions, and leaves a derivation as tidy as it was.
-/

namespace ProofDesk.Derivation

structure Tidy (d : Derivation) : Prop where
  laid : Laid d.rows
  closed : d.rows.IsChain Closes
  coherent : Coherent d.stamp d.rows

theorem Tidy.pruned {d : Derivation} (h : Tidy d) : Pruned d.rows :=
  pruned_of_isChain h.laid.ordered h.closed

theorem inRange_iff {rows : List Row} : inRange rows = true ↔ InRange rows := by
  simp [inRange, InRange]

section Cases

variable {d next : Derivation} {edit : Edit} {row : Row} {line : Line} {i : Nat} {faithful : Prop}

theorem copy?_eq_some (hrow : d.rows[edit.line]? = some row) {change : Change}
    (haction : edit.action = .change change) (hline : d.changed edit.line row change = .ok line) :
    d.copy? edit = some (row, line) := by
  rw [copy?, hrow, haction]
  simp [hline, Except.toOption]

theorem Yields.of_revised {origin rows : List Row} (h : Revised faithful origin rows) :
    Yields faithful origin rows rows :=
  ⟨h, Overgrown.refl rows, rfl⟩

variable (hrow : d.rows[i]? = some row) (htidy : Tidy d) (hcopied : Copied d.rows row line)
  (heditable : row.line.editable = true)
include hrow htidy hcopied heditable

theorem revised_setLine {line' : Line} (hstep : line'.step = line.step)
    (harguments : line'.arguments = line.arguments) (hfixed : line'.fixed = line.fixed)
    (hidle : line'.step.direction = .backward → line'.step.isComplete = true →
      line'.step.fits [line'.formula] = false)
    (hrelied : faithful → line'.formula = row.line.formula
      ∨ ∀ r ∈ d.rows, Checks r.line → row.label ∉ leading r.line.arguments) :
    Revised faithful d.rows (d.setLine i line').rows := by
  have hreplaces := hcopied.replaces htidy.laid (List.mem_of_getElem? hrow) heditable hstep
    harguments hfixed hidle hrelied
  obtain ⟨before, after, hrows, rfl⟩ := exists_split_of_getElem? hrow
  rw [setLine, hrows, modify_split]
  exact .single (.replace before after row line' (hrows ▸ hreplaces))

omit hrow htidy heditable in
theorem relied_of_rewritten {premises : List Formula} {conclusion : Formula}
    (hcomplete : line.step.isComplete = true) (hforward : line.step.direction = .forward)
    (hcited : d.cited line.arguments = .ok (some premises))
    (hconclude : line.step.conclude premises = .ok conclusion)
    (hsource : line.source = some row.line.stamp)
    (hgenerated : generated d.rows row.line.stamp = [])
    (hfaithful : (d.rewrites row line && reliedOn d.rows row.label) = false) :
    conclusion = row.line.formula
      ∨ ∀ r ∈ d.rows, Checks r.line → row.label ∉ leading r.line.arguments := by
  by_cases heq : conclusion = row.line.formula
  . exact .inl heq
  right
  have hrewrites : d.rewrites row line = true := by
    simp [rewrites, hcomplete, Line.isForward, Direction.isForward, hforward, hsource, hgenerated,
      hcited, hconclude, Except.toOption, hcopied.formula, heq]
  rw [hrewrites, Bool.true_and, reliedOn, List.any_eq_false] at hfaithful
  intro r hr hchecks hmem
  exact hfaithful r hr (by simp [hchecks, hmem])

theorem revised_record {premises : List Formula} {conclusion : Formula} {following : Option Stamp}
    (hcomplete : line.step.isComplete = true) (hforward : line.step.direction = .forward)
    (hcited : d.cited line.arguments = .ok (some premises))
    (hconclude : line.step.conclude premises = .ok conclusion)
    (hrange : InRange (d.record i row.label line conclusion row.line.stamp following).rows)
    (hfaithful : faithful → (d.rewrites row line && reliedOn d.rows row.label) = false) :
    Revised faithful d.rows
      (d.record i row.label line conclusion row.line.stamp following).rows := by
  have hidle : ∀ formula, line.step.direction = .backward → line.step.isComplete = true →
      line.step.fits [formula] = false := by
    intro formula hbackward
    simp [hforward] at hbackward
  have hrecorded := recorded_record d i row.label line conclusion row.line.stamp following
  generalize d.record i row.label line conclusion row.line.stamp following = result at *
  cases hrecorded with
  | rewritten hsource hgenerated =>
    refine revised_setLine hrow htidy hcopied heditable rfl rfl rfl (hidle _) ?_
    intro h
    exact relied_of_rewritten hcopied hcomplete hforward hcited hconclude hsource hgenerated
      (hfaithful h)
  | explained hformula =>
    exact revised_setLine hrow htidy hcopied heditable rfl rfl rfl (hidle _)
      fun _ => .inl hcopied.formula
  | inserted hformula =>
    obtain ⟨before, after, hrows, rfl⟩ := exists_split_of_getElem? hrow
    have hlaid := htidy.laid
    have hpruned := htidy.pruned
    have hrule := hcopied.rule_ne_directProof hforward hcomplete
    rw [hrows] at hlaid hpruned hcopied ⊢
    exact revised_insertConclusion hlaid hpruned hcopied heditable hrule hforward hrows _ _ _ hrange

theorem exists_yields_replaceLine
    (hclash : Checks line → clashesAround (d.setLine i (blank line)).rows i
      (generated (d.setLine i (blank line)).rows row.line.stamp) = false)
    (hreplaced : Replaced d i row line next) (hrange : InRange next.rows)
    (hfaithful : faithful → (d.rewrites row line && reliedOn d.rows row.label) = false) :
    ∃ live, Yields faithful d.rows live next.rows := by
  cases hreplaced with
  | stored hfits =>
    refine ⟨_, .of_revised (revised_setLine hrow htidy hcopied heditable rfl rfl rfl ?_ ?_)⟩
    . exact fun hbackward hcomplete => hfits hcomplete hbackward
    . exact fun _ => .inl hcopied.formula
  | expanded _ hcomplete hdirection hfits hnext =>
    exact exists_yields_expand hrow htidy.laid htidy.pruned htidy.coherent hcopied heditable
      (hclash ⟨hdirection, hcomplete, hfits⟩) (expanded_of_expand_eq_ok hnext) hrange
  | recorded premises conclusion hcomplete hdirection hcited hconclude =>
    exact ⟨_, .of_revised (revised_record hrow htidy hcopied heditable hcomplete hdirection hcited
      hconclude hrange hfaithful)⟩

end Cases

section Step

variable {d next : Derivation} {edit : Edit}

theorem touched_toggle {i : Nat} {row : Row} (hrow : d.rows[i]? = some row) :
    List.Forall₂ Touched d.rows
      (d.setLine i { row.line with editing := !row.line.editing }).rows := by
  have hsame : ∀ rows, List.Forall₂ Touched rows rows := fun rows =>
    List.forall₂_same.mpr fun _ _ => ⟨rfl, rfl, rfl, rfl, rfl, rfl, .inl rfl⟩
  obtain ⟨before, after, hrows, rfl⟩ := exists_split_of_getElem? hrow
  rw [setLine, hrows, modify_split]
  exact List.rel_append (hsame before)
    (.cons ⟨rfl, rfl, rfl, rfl, rfl, rfl, .inl rfl⟩ (hsame after))

theorem isChain_closes_of_forall₂ {rows rows' : List Row} (h : rows.IsChain Closes)
    (hsame : List.Forall₂ (fun a b => b.label = a.label
      ∧ (a.line.step.rule = some .directProof → b.line.step.rule = some .directProof))
      rows rows') : rows'.IsChain Closes := by
  induction hsame with
  | nil => exact .nil
  | @cons a b as bs hab hrest ih =>
    cases hrest with
    | nil => exact .singleton _
    | @cons c e cs es hce hrest =>
      cases h with
      | cons_cons hcloses h =>
        refine .cons_cons ?_ (ih h)
        intro hrule
        rw [hab.1, hce.1]
        exact hcloses fun hdirect => hrule (hce.2 hdirect)

theorem isChain_touch {rows rows' : List Row} (h : rows.IsChain Closes)
    (htouched : List.Forall₂ Touched rows rows') : rows'.IsChain Closes :=
  isChain_closes_of_forall₂ h (htouched.imp fun _ _ ht => ⟨ht.label, fun hrule => ht.step ▸ hrule⟩)

theorem Tidy.revised_of_apply_eq_ok (htidy : Tidy d) (horderly : d.orderly edit = true)
    (happly : d.apply edit = .ok next) :
    Revised (d.clobbers edit = false) d.rows next.rows ∧ next.rows.IsChain Closes := by
  simp only [orderly, Bool.and_eq_true, Bool.not_eq_true'] at horderly
  obtain ⟨hclash, hrange⟩ := horderly
  simp only [clashing, Bool.or_eq_false_iff] at hclash
  cases applied_of_apply_eq_ok happly with
  | toggled row hrow haction =>
    have htouched := touched_toggle hrow
    exact ⟨.single (.touch _ _ htouched), isChain_touch htidy.closed htouched⟩
  | deleted row hrow haction hfixed =>
    have hclash := hclash.1
    rw [haction] at hclash
    exact htidy.laid.revised_delete htidy.pruned hrow hfixed (by simpa using hclash)
  | changed row hrow change haction line hline between hbetween =>
    have hcopied := copied_of_changed (htidy.coherent.proper row (List.mem_of_getElem? hrow)) hline
    have hcopy := copy?_eq_some hrow haction hline
    have hclash := hclash.2
    simp only [hcopy, overflows, Option.any_some, hbetween, Except.toOption, Bool.not_eq_false']
      at hclash hrange
    have hyields : ∃ live, Yields (d.clobbers edit = false) d.rows live between.rows := by
      apply exists_yields_replaceLine hrow htidy hcopied (editable_of_changed hline) _
        (replaced_of_replaceLine_eq_ok hbetween) (inRange_iff.mp hrange)
      . intro hfaithful
        simpa [clobbers, hcopy] using hfaithful
      . intro hchecks
        simpa [hchecks] using hclash
    obtain ⟨live, hyields⟩ := hyields
    exact hyields.prune htidy.laid

theorem Tidy.of_apply_eq_ok (htidy : Tidy d) (horderly : d.orderly edit = true)
    (happly : d.apply edit = .ok next) : Tidy next := by
  obtain ⟨hrevised, hclosed⟩ := htidy.revised_of_apply_eq_ok horderly happly
  exact ⟨htidy.laid.of_revised hrevised, hclosed, coherent_of_apply_eq_ok htidy.coherent happly⟩

end Step

end ProofDesk.Derivation
