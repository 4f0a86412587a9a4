import ProofDesk.Proofs.Edit.Primed
import ProofDesk.Proofs.Edit.Undo
import ProofDesk.Proofs.Restamp

/-!
This module contains a backward line whose goals are supplied once more. Pruning after the first
time drops no more than the rows inside of the line, with all citations of them. So the second time
finds the lines that hold goals where they were, and puts in the lines that it has taken out.
-/

namespace ProofDesk.Derivation

theorem Ordered.exists_eq_append_of_sublist {before right kept : List Row}
    (h : Ordered (before ++ right)) (hsub : kept.Sublist (before ++ right))
    (hright : ∀ r ∈ right, r ∈ kept) :
    ∃ left, kept = left ++ right ∧ left.Sublist before ∧ ∀ r ∈ before, r ∈ kept → r ∈ left := by
  obtain ⟨hordered₁, hordered₂, hlt⟩ := List.pairwise_append.mp h
  have hapart : ∀ r ∈ before, r ∉ right := by
    intro r hr hr'
    simpa [Label.before_irrefl] using hlt r hr r hr'
  obtain ⟨left, right', rfl, hleft, hsub'⟩ := List.sublist_append_iff.mp hsub
  have hsame : right' = right := by
    apply Ordered.eq_of_sublist_of_subset hordered₂ hsub'
    intro r hr
    exact (List.mem_append.mp (hright r hr)).resolve_left fun hmem =>
      hapart r (hleft.subset hmem) hr
  refine ⟨left, by rw [hsame], hleft, ?_⟩
  intro r hr hkept
  exact (List.mem_append.mp hkept).resolve_right fun hmem => hapart r hr (hsub'.subset hmem)

theorem forgetAll_relabel {labels : List Label} {rename : Label → Label} {row : Row}
    (h : ∀ l, some l ∈ row.line.arguments → (rename l ∈ labels ↔ l ∈ labels)) :
    forgetAll labels (relabel rename row) = relabel rename (forgetAll labels row) := by
  have hargs : (row.line.arguments.map (Option.map rename)).map
        (Option.filter fun label => !labels.contains label)
      = (row.line.arguments.map (Option.filter fun label => !labels.contains label)).map
        (Option.map rename) := by
    rw [List.map_map, List.map_map]
    apply List.map_congr_left
    intro arg harg
    cases arg with
    | none => rfl
    | some l => by_cases hl : l ∈ labels <;> simp [Option.filter_some, h l harg, hl]
  rw [forgetAll_eq, forgetAll_eq]
  simp only [relabel, hargs]

theorem Spacious.forgetAll {row : Row} (h : Spacious row) (labels : List Label) :
    Spacious (forgetAll labels row) := by
  refine ⟨?_, fun l hl => h.cited l (mem_arguments_forgetAll hl).1⟩
  rw [label_forgetAll]
  exact h.label

section Supply

variable {before after new : List Row} {row : Row} {next : Stamp}
  {arguments : List (Option Label)} (h : Primed before after row next)
  (hnew : Inserted row.label next row.line.stamp new)
include h

theorem Primed.ne_nil : row.label.parts ≠ [] :=
  h.arranged.ne_nil row (by simp)

theorem Primed.spacious {r : Row} (hr : r ∈ before ++ row :: after) : Spacious r :=
  h.backed.spacious h.roomy hr

include hnew

theorem Primed.makeRoom_forgetAll {dropped : List Label}
    (hdropped : ∀ l ∈ dropped, l.isInside row.label) {x : Row} (hx : x ∈ after) :
    makeRoom row.label new.length (forgetAll dropped x)
      =
    forgetAll dropped (makeRoom row.label new.length x) := by
  have hspacious := h.spacious (r := x) (by simp [hx])
  rw [(hspacious.forgetAll dropped).makeRoom_eq hnew.length_le,
    hspacious.makeRoom_eq hnew.length_le]
  refine (forgetAll_relabel fun l _ => ?_).symm
  have hsame : l.isInside row.label → Label.moveFrom (· + new.length) row.label l = l :=
    fun hin => Label.moveFrom_of_before _ (Label.before_of_isInside hin)
  constructor
  . intro hl
    have hin := Label.isInside_of_moveFrom_add_isInside_self h.ne_nil (hdropped _ hl)
    rwa [hsame hin] at hl
  . intro hl
    rwa [hsame (hdropped l hl)]

theorem Primed.isInside_of_not_standing {r : Row}
    (hr : r ∈ supplied before new after row arguments)
    (hcut : ¬ Standing (supplied before new after row arguments) r.label) :
    r.label.isInside row.label := by
  have hstanding := h.outside row (by simp) (Label.isInside_irrefl _)
  have hcases : (∃ x ∈ before ++ row :: after,
      r.label = Label.moveFrom (· + new.length) row.label x.label)
      ∨ ∃ t, r.label = row.label.addLast t := by
    unfold supplied at hr
    apply exists_of_mem_insert h.arranged rfl hnew.label _ hr
    exact h.roomy.map_label_makeRoom hnew.length_le
  rcases hcases with ⟨x, hx, heq⟩ | ⟨t, heq⟩
  . rw [heq] at hcut ⊢
    by_cases hin : x.label.isInside row.label
    . rwa [Label.moveFrom_of_before _ (Label.before_of_isInside hin)]
    . rw [Bool.not_eq_true] at hin
      exact absurd ((h.outside x hx hin).supplied_moveFrom h.roomy hnew.length_le h.arranged
        arguments hin) hcut
  . rw [heq] at hcut
    exact absurd ((enclosed_addLast_iff h.ne_nil).mpr
      (hstanding.supplied h.roomy hnew.length_le h.arranged arguments)) hcut

theorem Primed.not_isInside_of_mem_right {r : Row}
    (hr : r ∈ new ++ ⟨(makeRoom row.label new.length row).label, { row.line with arguments }⟩
      :: after.map (makeRoom row.label new.length)) :
    r.label.isInside row.label = false := by
  simp only [List.mem_append, List.mem_cons, List.mem_map] at hr
  rcases hr with hr | rfl | ⟨x, hx, rfl⟩
  . obtain ⟨t, ht⟩ := List.getElem?_of_mem hr
    rw [hnew.label t r ht, Label.addLast_isInside_self h.ne_nil]
  . rw [h.roomy.label_makeRoom hnew.length_le _ (by simp), Label.moveFrom_add_self,
      Label.addLast_isInside_self h.ne_nil]
  . rw [h.roomy.label_makeRoom hnew.length_le _ (by simp [hx]), ← Bool.not_eq_true]
    intro hin
    have := Label.isInside_of_moveFrom_add_isInside_self h.ne_nil hin
    simp [h.arranged.ordered.not_isInside_of_mem_right hx] at this

theorem Primed.arranged_supplied (arguments : List (Option Label)) :
    Arranged (supplied before new after row arguments) :=
  h.arranged.supplied h.roomy hnew.length_le arguments hnew.label

theorem Primed.exists_prune_supplied
    (harguments : ∀ l, some l ∈ arguments → l.isInside row.label = false) :
    ∃ (kept : List Row) (dropped : List Label), kept.Sublist before
      ∧ (∀ r ∈ before, r.label.isInside row.label = false → r ∈ kept)
      ∧ prune (supplied before new after row arguments)
        = supplied (kept.map (forgetAll dropped)) new (after.map (forgetAll dropped)) row
          arguments := by
  have harranged := h.arranged_supplied hnew arguments
  have hordered := harranged.ordered
  obtain ⟨kept, dropped, heq, hsub, hall, hdropped⟩ := harranged.exists_prune_eq
  have hinside : ∀ l ∈ dropped, l.isInside row.label := by
    intro l hl
    obtain ⟨⟨r, hr, rfl⟩, hcut⟩ := hdropped l hl
    exact h.isInside_of_not_standing hnew hr hcut
  have hstays : ∀ r ∈ supplied before new after row arguments,
      r.label.isInside row.label = false → r ∈ kept := by
    intro r hr houtside
    apply (hall r hr).resolve_right
    intro hmem
    simp [hinside _ hmem] at houtside
  have hforget : ∀ r : Row, (∀ l, some l ∈ r.line.arguments → l.isInside row.label = false) →
      forgetAll dropped r = r := by
    intro r hr
    apply forgetAll_eq_self
    intro l hl hmem
    simpa [hinside l hmem] using hr l hl
  have hnew' : new.map (forgetAll dropped) = new := by
    apply map_eq_self
    intro r hr
    apply hforget
    simp [hnew.arguments r hr]
  have hafter : (after.map (makeRoom row.label new.length)).map (forgetAll dropped)
      = (after.map (forgetAll dropped)).map (makeRoom row.label new.length) := by
    rw [List.map_map, List.map_map]
    apply List.map_congr_left
    intro x hx
    exact (h.makeRoom_forgetAll hnew hinside hx).symm
  rw [supplied, List.append_assoc] at hsub hordered hstays
  obtain ⟨left, rfl, hleft, hmem⟩ := hordered.exists_eq_append_of_sublist hsub fun r hr =>
    hstays r (List.mem_append_right _ hr) (h.not_isInside_of_mem_right hnew hr)
  refine ⟨left, dropped, hleft, ?_, ?_⟩
  . intro r hr houtside
    exact hmem r hr (hstays r (List.mem_append_left _ hr) houtside)
  . rw [heq, List.map_append, List.map_append, List.map_cons, hnew', hafter, hforget _ harguments,
      supplied, List.append_assoc]

end Supply

theorem Childless.source_of_le {before new after : List Row} {root next : Stamp}
    (h : Childless (before ++ after) root next)
    (hnew : ∀ r ∈ new, r.line.source = some root) :
    ∀ r ∈ before ++ new ++ after, next.number ≤ r.line.stamp.number →
      r.line.source = some root := by
  intro r hr hle
  by_cases hmem : r ∈ new
  . exact hnew r hmem
  . have hold : r ∈ before ++ after := by
      simp only [List.mem_append] at hr ⊢
      tauto
    have := (h r hold).1
    omega

theorem Childless.map_restamp {rows : List Row} {root next : Stamp} (h : Childless rows root next)
    (k : Nat) : rows.map (Row.restamp (next.raise k)) = rows := by
  apply map_eq_self
  intro r hr
  obtain ⟨hlt, hsource⟩ := h r hr
  exact Row.restamp_eq_self (Stamp.raise_of_lt hlt k)
    fun s hs => Stamp.raise_of_lt (hsource s hs).1 k

@[simp]
theorem link_forgetAll (labels : List Label) (row : Row) :
    link (forgetAll labels row).line = link row.line := by
  rw [forgetAll_eq]
  rfl

@[simp]
theorem link_makeRoom (base : Label) (n : Nat) (row : Row) :
    link (makeRoom base n row).line = link row.line := by
  have hbare := bare_makeRoom base n row
  exact Prod.ext (congrArg (·.stamp) hbare) (congrArg (·.source) hbare)

structure Trimmed (before after : List Row) (row : Row) (next : Stamp) : Prop where
  ne_nil : row.label.parts ≠ []
  room : ∀ n ∈ row.label.parts, n + 2 < Label.maxPart
  cited : ∀ r ∈ before, ∀ l, some l ∈ r.line.arguments → l.before row.label
  spacious : ∀ r ∈ after, Spacious r
  childless : Childless (before ++ row :: after) row.line.stamp next

theorem Primed.trimmed {before after kept : List Row} {row : Row} {next : Stamp}
    (h : Primed before after row next) (hsub : kept.Sublist before) (dropped : List Label) :
    Trimmed (kept.map (forgetAll dropped)) (after.map (forgetAll dropped)) row next := by
  refine ⟨h.ne_nil, h.roomy row (by simp), ?_, ?_, ?_⟩
  . rw [List.forall_mem_map]
    intro x hx l hl
    have hx := hsub.subset hx
    obtain ⟨r, -, rfl, hbefore⟩ := h.backed x (by simp [hx]) l (mem_arguments_forgetAll hl).1
    exact Label.before_trans hbefore (h.arranged.ordered.before_of_mem_left hx)
  . rw [List.forall_mem_map]
    intro x hx
    exact (h.spacious (by simp [hx])).forgetAll dropped
  . apply h.childless.of_links
    have hsub' : (kept ++ row :: after).Sublist (before ++ row :: after) := hsub.append_right _
    simpa [Function.comp_def] using (hsub'.map fun r => link r.line).subset

section Again

variable {before after new : List Row} {row : Row} {next : Stamp}
  (h : Trimmed before after row next)
include h

theorem Trimmed.stamp_lt : row.line.stamp.number < next.number :=
  (h.childless row (by simp)).1

theorem Trimmed.childless_makeRoom (arguments : List (Option Label)) (n : Nat) :
    Childless (before ++ ⟨(makeRoom row.label n row).label, { row.line with arguments }⟩
      :: after.map (makeRoom row.label n)) row.line.stamp next := by
  apply h.childless.of_links
  have hlink : link { row.line with arguments } = link row.line := rfl
  simp [Function.comp_def, hlink]

theorem Trimmed.map_restamp_supplied (new : List Row) (arguments : List (Option Label)) (k : Nat) :
    (supplied before new after row arguments).map (Row.restamp (next.raise k))
      =
    supplied before (new.map (Row.restamp (next.raise k))) after row arguments := by
  have hold := (h.childless_makeRoom arguments new.length).map_restamp k
  rw [List.map_append] at hold
  obtain ⟨hbefore, hafter⟩ := List.append_inj hold (by simp)
  rw [supplied, supplied, List.map_append, List.map_append, hbefore, hafter, List.length_map]

theorem Trimmed.removeAround_supplied (hnew : Inserted row.label next row.line.stamp new)
    (arguments : List (Option Label)) :
    ∃ arguments', removeAround (supplied before new after row arguments)
        (before.length + new.length)
        (generated (supplied before new after row arguments) row.line.stamp)
      = (before ++ ⟨row.label, { row.line with arguments := arguments' }⟩ :: after,
        before.length) := by
  have hbefore : ∀ r ∈ before, ∀ t < new.length,
      some (row.label.addLast t) ∉ r.line.arguments := by
    intro r hr t _ hmem
    have := Label.before_addLast (t := t) (h.cited r hr _ hmem)
    simp [Label.before_irrefl] at this
  have hlabel : (makeRoom row.label new.length row).label = row.label.addLast new.length := by
    have hroomy : Roomy [row] := by simpa [Roomy] using h.room
    rw [hroomy.label_makeRoom hnew.length_le _ (List.mem_singleton_self row),
      Label.moveFrom_add_self]
  have hafter : after.map (makeRoom row.label new.length)
      = after.map (relabel (Label.moveFrom (· + new.length) row.label)) :=
    List.map_congr_left fun r hr => (h.spacious r hr).makeRoom_eq hnew.length_le row.label
  have hgenerated : generated (supplied before new after row arguments) row.line.stamp
      = List.range' before.length new.length :=
    generated_eq_range' h.stamp_lt (fun r hr => ⟨hnew.source r hr, hnew.stamp_le r hr⟩)
      fun r hr => (h.childless_makeRoom arguments new.length r hr).2
  obtain ⟨arguments', hremove⟩ :=
    hnew.removeAround_eq h.ne_nil h.room h.spacious hbefore { row.line with arguments }
  refine ⟨arguments', ?_⟩
  rw [hgenerated, supplied, hlabel, hafter, hremove]

end Again

theorem Ordered.holder?_eq {before kept : List Row} {base : Label} (h : Ordered before)
    (hsub : kept.Sublist before)
    (hkept : ∀ r ∈ before, r.label.isInside base = false → r ∈ kept) (dropped : List Label) :
    holder? (kept.map (forgetAll dropped)) base = holder? before base := by
  funext goal
  let holds (row : Row) : Bool := row.line.formula == goal && row.label.visibleAt base
  have hfilter : kept.filter holds = before.filter holds := by
    have hordered : Ordered (before.filter holds) := h.sublist List.filter_sublist
    apply hordered.eq_of_sublist_of_subset (hsub.filter holds)
    intro r hr
    obtain ⟨hr, hholds⟩ := List.mem_filter.mp hr
    have hvisible : r.label.visibleAt base := (Bool.and_eq_true_iff.mp hholds).2
    exact List.mem_filter.mpr ⟨hkept r hr (Label.not_isInside_of_visibleAt hvisible), hholds⟩
  have hfind : kept.find? holds = before.find? holds := by
    rw [← List.head?_filter, hfilter, List.head?_filter]
  have hsame : holds ∘ forgetAll dropped = holds := by
    funext r
    simp only [Function.comp_apply, holds, forgetAll_eq]
  have hlabel : Row.label ∘ forgetAll dropped = Row.label := by
    funext r
    rw [Function.comp_apply, label_forgetAll]
  change ((kept.map (forgetAll dropped)).find? holds).map Row.label = (before.find? holds).map _
  rw [List.find?_map, hsame, hfind, Option.map_map, hlabel]

theorem getElem?_supplied (before new after : List Row) (row : Row)
    (arguments : List (Option Label)) :
    (supplied before new after row arguments)[before.length + new.length]?
      =
    some ⟨(makeRoom row.label new.length row).label, { row.line with arguments }⟩ := by
  rw [supplied, ← List.length_append, getElem?_split]

theorem setLine_self {d : Derivation} {i : Nat} {row : Row} (hrow : d.rows[i]? = some row) :
    d.setLine i row.line = d := by
  obtain ⟨before, after, hrows, rfl⟩ := exists_split_of_getElem? hrow
  rw [setLine, hrows, modify_split, ← hrows]

theorem Trimmed.expand_supplied {d : Derivation} {before after new : List Row} {row : Row}
    {first : Stamp} {arguments : List (Option Label)} {goals : List Formula}
    (h : Trimmed before after row first) (hnew : Inserted row.label first row.line.stamp new)
    (hfill : fill (holder? before row.label) row.label first row.line.stamp goals
      = ⟨new, arguments⟩)
    (hreduce : row.line.step.reduce [row.line.formula] = .ok goals)
    (hrule : row.line.step.rule ≠ some .directProof)
    (hrows : d.rows = supplied before new after row arguments)
    (hstamp : d.stamp = ⟨first.number + new.length⟩) :
    d.expand (before.length + new.length) { row.line with arguments } row.line.stamp
      =
    .ok (d.restamp (first.raise new.length)) := by
  have hget := getElem?_supplied before new after row arguments
  rw [← hrows] at hget
  obtain ⟨arguments', hremove⟩ := h.removeAround_supplied hnew arguments
  rw [← hrows, ← setLine_self hget] at hremove
  rw [expand_of_ne_directProof hremove (getElem?_split _) hreduce hrule]
  have hfill' : fill (holder? before row.label) row.label d.stamp row.line.stamp goals
      = ⟨new.map (Row.restamp (first.raise new.length)), arguments⟩ := by
    rw [hstamp, fill_raise _ _ h.stamp_lt, hfill]
  let row' : Row := ⟨row.label, { row.line with arguments := arguments' }⟩
  have hsupply := supplyGoals_eq_fill (d := { d with rows := before ++ row' :: after }) rfl hfill'
  have hlabel : (makeRoom row.label new.length row').label
      = (makeRoom row.label new.length row).label := by
    unfold makeRoom
    split <;> rfl
  have hraise : first.raise new.length d.stamp = ⟨d.stamp.number + new.length⟩ := by
    apply Stamp.raise_of_le
    rw [hstamp]
    exact Nat.le_add_right ..
  have hrestamp := h.map_restamp_supplied new arguments new.length
  rw [← hrows] at hrestamp
  refine congrArg Except.ok (hsupply.trans ?_)
  rw [restamp, hrestamp, hraise, supplied, List.length_map, hlabel]

def Stable (d : Derivation) (first root : Stamp) : Prop :=
  (∀ r ∈ d.rows, first.number ≤ r.line.stamp.number → r.line.source = some root)
    ∧ ∃ n, d.stamp = ⟨first.number + n⟩ ∧ ∃ j row, d.rows[j]? = some row ∧ row.line.stamp = root
      ∧ d.update j row.line = .ok (d.restamp (first.raise n))

theorem stable_of_expand {d : Derivation} {rows : List Row} {j n : Nat} {first root : Stamp}
    (row : Row) (hrows : d.rows = prune rows) (harranged : Arranged rows)
    (hrow : d.rows[j]? = some row) (hroot : row.line.stamp = root)
    (hcomplete : row.line.step.isComplete = true)
    (hbackward : row.line.step.direction = .backward)
    (hfits : row.line.step.fits [row.line.formula] = true)
    (hsource : ∀ r ∈ d.rows, first.number ≤ r.line.stamp.number → r.line.source = some root)
    (hstamp : d.stamp = ⟨first.number + n⟩)
    (hexpand : d.expand j row.line root = .ok (d.restamp (first.raise n))) :
    d.Stable first root := by
  have hdepth : ∀ r ∈ rows, 0 < r.label.depth :=
    fun r hr => List.length_pos_of_ne_nil (harranged.ne_nil r hr)
  refine ⟨hsource, n, hstamp, j, row, hrow, hroot, ?_⟩
  rw [← hroot] at hexpand
  rw [update_of_backward hcomplete hrow hbackward hfits hexpand, restamp, hrows,
    prune_restamp_prune hdepth]

theorem Primed.stable_supplyGoals {d b : Derivation} {before after : List Row} {row : Row}
    {goals : List Formula} (h : Primed before after row d.stamp)
    (hcomplete : row.line.step.isComplete = true)
    (hbackward : row.line.step.direction = .backward)
    (hfits : row.line.step.fits [row.line.formula] = true)
    (hreduce : row.line.step.reduce [row.line.formula] = .ok goals)
    (hrule : row.line.step.rule ≠ some .directProof)
    (hb : b = { d with rows := before ++ row :: after }.supplyGoals before.length row.label
      row.line.stamp goals) :
    ({ b with rows := prune b.rows } : Derivation).Stable d.stamp row.line.stamp := by
  let d₁ : Derivation := { d with rows := before ++ row :: after }
  have hmem : row ∈ before ++ row :: after := by simp
  obtain ⟨new, arguments, hfill, hlen, hgoals, hsupplies⟩ :=
    exists_fill_eq (d := d₁) rfl row.label row.line.stamp goals
  have htwo : new.length ≤ 2 := by
    have hlen' := Step.length_of_reduce_eq_ok hreduce
    have harity := row.line.step.arity_le_two
    omega
  have hnew : Inserted row.label d.stamp row.line.stamp new :=
    hgoals.inserted htwo fun t r => h.roomy.label_newGoals hmem htwo hgoals
  have harguments : ∀ l, some l ∈ arguments → l.isInside row.label = false := by
    intro l hl
    obtain ⟨goal, -, r, hr, -, hwhere⟩ := exists_left_of_forall₂ hsupplies hl
    obtain rfl : l = r.label := by simpa using hr
    rcases hwhere with ⟨-, hvisible⟩ | hr
    . exact Label.not_isInside_of_visibleAt hvisible
    . obtain ⟨t, ht⟩ := List.getElem?_of_mem hr
      rw [hnew.label t r ht, Label.addLast_isInside_self h.ne_nil]
  have hb' : b = { d with
      rows := supplied before new after row arguments
      stamp := ⟨d.stamp.number + new.length⟩ } := by
    rw [hb, supplyGoals_eq_fill (d := d₁) rfl hfill, supplied]
  obtain ⟨kept, dropped, hsub, hkept, hprune⟩ := h.exists_prune_supplied hnew harguments
  have htrimmed := h.trimmed hsub dropped
  rw [← (Ordered.holder?_eq (List.pairwise_append.mp h.arranged.ordered).1 hsub hkept dropped)]
    at hfill
  rw [hb']
  let row' : Row := ⟨(makeRoom row.label new.length row).label, { row.line with arguments }⟩
  have hget := getElem?_supplied (kept.map (forgetAll dropped)) new (after.map (forgetAll dropped))
    row arguments
  rw [← hprune] at hget
  apply stable_of_expand row' rfl (h.arranged_supplied hnew arguments) hget rfl hcomplete hbackward
    hfits _ rfl
  . exact htrimmed.expand_supplied hnew hfill hreduce hrule hprune rfl
  . rw [hprune]
    exact (htrimmed.childless_makeRoom arguments new.length).source_of_le hnew.source

end ProofDesk.Derivation
