import ProofDesk.Proofs.Edit.Conclusion
import ProofDesk.Proofs.Edit.Cases
import ProofDesk.Proofs.Edit.Copy
import ProofDesk.Proofs.Edit.Room
import ProofDesk.Proofs.Overgrown

/-!
This module contains the storing of a changed line, and what a forward line does with its
conclusion, as revisions.
-/

namespace ProofDesk.Derivation

section Store

variable {faithful : Prop} {rows : List Row} {row : Row} {line line' : Line}

theorem Copied.cited_anchored (h : Copied rows row line) (hlaid : Laid rows) (hrow : row ∈ rows)
    {label : Label} (hlabel : some label ∈ line.arguments) :
    (∃ r ∈ rows, r.label = label)
      ∧ (label.visibleAt row.label ∨ ∃ k, label = row.label.child k) := by
  cases h.cited label hlabel with
  | inl hold => exact hlaid.anchored row hrow label hold
  | inr hset => exact ⟨hset.2, .inl hset.1⟩

theorem Copied.replaces (h : Copied rows row line) (hlaid : Laid rows) (hrow : row ∈ rows)
    (heditable : row.line.editable = true) (hstep : line'.step = line.step)
    (harguments : line'.arguments = line.arguments) (hfixed : line'.fixed = line.fixed)
    (hidle : line'.step.direction = .backward → line'.step.isComplete = true →
      line'.step.fits [line'.formula] = false)
    (hrelied : faithful → line'.formula = row.line.formula
      ∨ ∀ r ∈ rows, Checks r.line → row.label ∉ leading r.line.arguments) :
    Replaces faithful rows row line' where
  fixed := by rw [hfixed, h.fixed]
  editable := heditable
  rule := hstep ▸ h.rule_ne_assumption
  cited := fun _ hlabel => h.cited_anchored hlaid hrow (harguments ▸ hlabel)
  children := by
    rintro hrule ⟨p, q, hformula⟩
    have hbackward := h.proper.backward (hstep ▸ hrule)
    rw [← hstep] at hbackward
    have hcomplete : line'.step.isComplete = true := by
      simp [Step.isComplete, Step.needsSide, hrule, hbackward]
    have hfits : line'.step.fits [line'.formula] = true := by
      simp [Step.fits, Step.fitsBackward, hrule, hbackward, hformula]
    simp [hidle hbackward hcomplete] at hfits
  head := by
    intro k hk
    rw [harguments] at hk
    cases h.head _ hk with
    | inl hold => exact .inl hold
    | inr hvisible =>
      have := Label.not_isInside_of_visibleAt hvisible
      simp [Label.isInside_child] at this
  holds := by
    rintro ⟨hbackward, hcomplete, hfits⟩
    simp [hidle hbackward hcomplete] at hfits
  relied := hrelied

end Store

theorem touched_unlink (previous : Stamp) (row : Row) : Touched row (unlink previous row) := by
  unfold unlink
  split
  . exact ⟨rfl, rfl, rfl, rfl, rfl, rfl, .inr rfl⟩
  . exact ⟨rfl, rfl, rfl, rfl, rfl, rfl, .inl rfl⟩

theorem forall₂_touched_unlink (previous : Stamp) (rows : List Row) :
    List.Forall₂ Touched rows (rows.map (unlink previous)) := by
  rw [List.forall₂_map_right_iff, List.forall₂_same]
  exact fun row _ => touched_unlink previous row

theorem replaces_new {faithful : Prop} {rows : List Row} {row : Row}
    (heditable : row.line.editable = true) :
    Replaces faithful rows row
      (.new row.line.formula row.line.stamp (.unknown .forward) row.line.fixed
        row.line.editable) := by
  have harguments : (Line.new row.line.formula row.line.stamp (.unknown .forward) row.line.fixed
      row.line.editable).arguments = [] := rfl
  refine ⟨rfl, heditable, by simp [Line.new, Step.unknown, Step.ofRule, Step.setRule], ?_, ?_, ?_,
    ?_, fun _ => .inl rfl⟩
  . simp [harguments]
  . simp [harguments]
  . simp [harguments]
  . rintro ⟨hdirection, -⟩
    simp [Line.new, Step.unknown, Step.ofRule, Step.setRule] at hdirection

theorem label_reset (following : Option Stamp) (row : Row) :
    (reset following row).label = row.label := by
  unfold reset
  split <;> rfl

theorem revised_reset {faithful : Prop} {before after : List Row} {new row : Row}
    (heditable : row.line.editable = true) (following : Option Stamp) :
    Revised faithful (before ++ new :: row :: after)
      (before ++ new :: reset following row :: after) := by
  unfold reset
  split
  . have hreplace : Revision faithful _ _ :=
      .replace (before ++ [new]) after row _ (replaces_new heditable)
    rw [← List.append_cons, ← List.append_cons] at hreplace
    exact .single hreplace
  . exact .refl

section Insert

variable {faithful : Prop} {before after : List Row} {row : Row} {line : Line}
  (hlaid : Laid (before ++ row :: after)) (hpruned : Pruned (before ++ row :: after))
  (hcopied : Copied (before ++ row :: after) row line) (heditable : row.line.editable = true)
  (hrule : row.line.step.rule ≠ some .directProof) (hforward : line.step.direction = .forward)
include hlaid hpruned hcopied heditable hrule hforward

theorem inserts_conclusion (conclusion : Formula) (stamp : Stamp)
    (hrange : InRange ((row :: after).map (makeRoom row.label 1))) :
    Inserts before [⟨row.label, conclusionLine line conclusion stamp⟩]
      ((row :: after).map (makeRoom row.label 1)) := by
  have hinside := hpruned row (by simp) hrule
  refine ⟨?_, ?_, hlaid.ne_nil_of_editable heditable, by simp, ?_, ?_, ?_, ?_⟩
  . refine ordered_insert_makeRoom hlaid hrange ?_ rfl
    intro t r hr
    cases t with
    | zero =>
      simp only [List.getElem?_cons_zero, Option.some.injEq] at hr
      rw [← hr, Label.addLast_zero]
    | succ t => simp at hr
  . simpa using hlaid.valid row (by simp)
  . simp only [List.mem_singleton, forall_eq]
    intro label hlabel
    obtain ⟨⟨r, hr, rfl⟩, hscope⟩ := hcopied.cited_anchored hlaid (by simp) hlabel
    have hvisible : r.label.visibleAt row.label := by
      cases hscope with
      | inl hvisible => exact hvisible
      | inr hchild =>
        obtain ⟨k, hk⟩ := hchild
        have := hinside r hr
        simp [hk, Label.isInside_child] at this
    refine ⟨hvisible, r, ?_, rfl⟩
    have hbefore' := Label.before_of_visibleAt hvisible
    simp only [List.mem_append, List.mem_cons] at hr
    rcases hr with hr | rfl | hr
    . simp [hr]
    . simp [Label.before_irrefl] at hbefore'
    . simp [Label.before_asymm (hlaid.ordered.before_of_mem_right hr)] at hbefore'
  . simp only [List.mem_singleton, forall_eq]
    intro (hdp : line.step.rule = some .directProof)
    simp [hcopied.proper.backward hdp] at hforward
  . simp only [List.mem_singleton, forall_eq]
    intro (hbackward : line.step.direction = .backward)
    simp [hforward] at hbackward
  . simp only [List.mem_singleton, forall_eq]
    intro (hassumption : line.step.rule = some .assumption)
    exact absurd hassumption hcopied.rule_ne_assumption

theorem revised_insertConclusion {d : Derivation} (hrows : d.rows = before ++ row :: after)
    (conclusion : Formula) (previous : Stamp) (following : Option Stamp)
    (hrange : InRange
      (d.insertConclusion before.length row.label line conclusion previous following).rows) :
    Revised faithful (before ++ row :: after)
      (d.insertConclusion before.length row.label line conclusion previous following).rows := by
  rw [insertConclusion_eq hrows] at hrange ⊢
  dsimp only at hrange ⊢
  have hshift : Row.shift row.label 1 = makeRoom row.label 1 :=
    (makeRoom_eq_shift Nat.zero_lt_one).symm
  rw [hshift] at hrange ⊢
  have hroom : InRange ((row :: after).map (makeRoom row.label 1)) := by
    intro r hr
    simp only [List.map_cons, List.mem_cons] at hr
    cases hr with
    | inl hr =>
      have := hrange (reset following (unlink previous (makeRoom row.label 1 row))) (by simp)
      rwa [label_reset, (touched_unlink previous _).label, ← hr] at this
    | inr hr =>
      have hmem := List.mem_map_of_mem (f := unlink previous) hr
      have := hrange (unlink previous r)
        (by simp only [List.mem_append, List.mem_cons, hmem, or_true])
      rwa [(touched_unlink previous r).label] at this
  have hmoved : Revision faithful _ _ := revision_makeRoom hlaid hroom (hpruned row (by simp) hrule)
  have hinsert : Revision faithful _ _ := .insert _ _ _
    (inserts_conclusion hlaid hpruned hcopied heditable hrule hforward conclusion d.stamp hroom)
  have heditable' : (unlink previous (makeRoom row.label 1 row)).line.editable = true := by
    rw [(touched_unlink previous _).editable, ← hshift]
    exact heditable
  refine .trans
    (.tail (.tail (.single hmoved) hinsert) (.touch _ _ (forall₂_touched_unlink previous _))) ?_
  simp only [List.map_append, List.map_cons, List.append_assoc, List.singleton_append]
  exact revised_reset heditable' following

end Insert

end ProofDesk.Derivation
