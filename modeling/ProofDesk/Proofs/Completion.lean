import ProofDesk.Proofs.Edit.Enclosure
import ProofDesk.Proofs.Edit.Record
import ProofDesk.Proofs.Identity

/-!
This module contains what completes a line: after an edit that leaves a line with a complete step
that fits, the line is correct. This does not depend on the rest of the derivation being correct, or
on how it came about, as long as citations are in scope and every subproof is closed by a direct
proof.
-/

namespace ProofDesk.Derivation

/--
Labels in order and within range, distinct stamps, citations of earlier lines in scope, and a
backward direct proof behind every subproof. Nothing is asked of the formulas and the steps.
-/
structure Regular (d : Derivation) : Prop where
  ordered : Ordered d.rows
  ne_nil : ∀ row ∈ d.rows, row.label.parts ≠ []
  roomy : Roomy d.rows
  distinct : (d.rows.map fun row => row.line.stamp).Nodup
  earlier : ∀ i row, d.rows[i]? = some row → ∀ label, some label ∈ row.line.arguments →
    label ∈ d.labels.take i
  scope : ∀ row ∈ d.rows, ∀ label, some label ∈ row.line.arguments →
    label.visibleAt row.label
      ∨ row.line.step.rule = some .directProof ∧ ∃ k, label = row.label.child k
  headed : ∀ row ∈ d.rows, ∀ h : Label, row.label.isInside h → h.parts ≠ [] →
    ∃ r ∈ d.rows, r.label = h ∧ r.line.step.rule = some .directProof
      ∧ r.line.step.direction = .backward

def CorrectAt (d : Derivation) (i : Nat) (line : Line) : Prop :=
  ∃ row, d.rows[i]? = some row ∧ row.line.step = line.step ∧ row.line.arguments = line.arguments
    ∧ d.isCorrect i = .ok true

def HasCorrect (d : Derivation) (line : Line) : Prop :=
  ∃ i row, d.rows[i]? = some row ∧ row.line.stamp = line.stamp ∧ row.line.formula = line.formula
    ∧ row.line.step = line.step ∧ d.isCorrect i = .ok true

theorem HasCorrect.congr {d : Derivation} {line line' : Line} (h : d.HasCorrect line)
    (hstamp : line.stamp = line'.stamp) (hformula : line.formula = line'.formula)
    (hstep : line.step = line'.step) : d.HasCorrect line' := by
  unfold HasCorrect at h
  rwa [hstamp, hformula, hstep] at h

theorem HasCorrect.of_bare {d : Derivation} {row row' : Row} (h : d.HasCorrect row.line)
    (hbare : bare row = bare row') : d.HasCorrect row'.line :=
  h.congr (congrArg (·.stamp) hbare) (congrArg (·.formula) hbare) (congrArg (·.step) hbare)

theorem forall₂_cites_of_image {rows rows' : List Row} {args : List (Option Label)}
    {ps : List Formula} (h : List.Forall₂ (Cites rows) args ps)
    (himage : ∀ x ∈ rows, some x.label ∈ args →
      ∃ y ∈ rows', y.label = x.label ∧ y.line.formula = x.line.formula) :
    List.Forall₂ (Cites rows') args ps := by
  induction h with
  | nil => exact .nil
  | cons hcites _ ih =>
    obtain ⟨x, hx, rfl, rfl⟩ := hcites
    obtain ⟨y, hy, hlabel, hformula⟩ := himage x hx List.mem_cons_self
    refine .cons ⟨y, hy, by rw [hlabel], hformula⟩ (ih ?_)
    exact fun z hz hmem => himage z hz (List.mem_cons_of_mem _ hmem)

section Prune

variable {d : Derivation} {row : Row} {ps : List Formula} (h : Arranged d.rows)
include h

theorem isCorrect_prune_of_forward {i : Nat}
    (hstanding : ∀ row ∈ d.rows, Standing d.rows row.label) (hrow : d.rows[i]? = some row)
    (hforward : row.line.step.direction = .forward)
    (hconclude : row.line.step.conclude ps = .ok row.line.formula)
    (hvisible : ∀ label, some label ∈ row.line.arguments → label.visibleAt row.label)
    (hcites : List.Forall₂ (Cites d.rows) row.line.arguments ps) :
    (prune d.rows)[i]? = some row
      ∧ ({ d with rows := prune d.rows } : Derivation).isCorrect i = .ok true := by
  rw [h.prune_eq_self hstanding]
  exact ⟨hrow, isCorrect_of_forward h.ordered hrow hforward hconclude hvisible hcites⟩

theorem hasCorrect_prune_of_backward (hrow : row ∈ d.rows)
    (hstanding : Standing d.rows row.label)
    (hcited : ∀ label, some label ∈ row.line.arguments → Standing d.rows label)
    (hbackward : row.line.step.direction = .backward)
    (hreduce : row.line.step.reduce [row.line.formula] = .ok ps)
    (hcites : List.Forall₂ (Cites d.rows) row.line.arguments ps) :
    ({ d with rows := prune d.rows } : Derivation).HasCorrect row.line := by
  obtain ⟨dropped, hkept, hdropped⟩ := h.exists_mem_prune
  have hsame : forgetAll dropped row = row := by
    apply forgetAll_eq_self
    exact fun label harg hmem => hdropped label hmem (hcited label harg)
  have hmem := hkept row hrow hstanding
  rw [hsame] at hmem
  obtain ⟨j, hj⟩ := List.getElem?_of_mem hmem
  refine ⟨j, row, hj, rfl, rfl, rfl, ?_⟩
  have hcites' : List.Forall₂ (Cites (prune d.rows)) row.line.arguments ps := by
    apply forall₂_cites_of_image hcites
    intro x hx hlabel
    refine ⟨_, hkept x hx (hcited _ hlabel), ?_⟩
    rw [forgetAll_eq]
    exact ⟨rfl, rfl⟩
  exact isCorrect_of_backward (d := { d with rows := prune d.rows }) h.ordered_prune hj hbackward
    hreduce hcites'

end Prune

theorem Standing.setLine {before after : List Row} {row : Row} {l : Label}
    (h : Standing (before ++ row :: after) l) (hl : l.isInside row.label = false) (line : Line) :
    Standing (before ++ ⟨row.label, line⟩ :: after) l := by
  apply h.of_image
  intro x hx hin
  simp only [List.mem_append, List.mem_cons] at hx ⊢
  rcases hx with hx | rfl | hx
  . exact ⟨x, .inl hx, rfl, rfl⟩
  . simp [hl] at hin
  . exact ⟨x, .inr (.inr hx), rfl, rfl⟩

namespace Regular

variable {d : Derivation} {row : Row} (h : Regular d)
include h

theorem standing (hrow : row ∈ d.rows) : Standing d.rows row.label := by
  intro header hin hne
  obtain ⟨r, hr, hlabel, hrule, -⟩ := h.headed row hrow header hin hne
  exact ⟨r, hr, hlabel, hrule⟩

theorem arranged : Arranged d.rows := by
  refine ⟨h.ordered, ?_, h.ne_nil⟩
  intro row hrow header hin hne
  obtain ⟨r, hr, hlabel, -⟩ := h.headed row hrow header hin hne
  exact ⟨r, hr, hlabel, trivial⟩

section Copy

variable (hrow : row ∈ d.rows)
  (hdp : row.line.step.rule = some .directProof → row.line.step.direction = .forward)
include hrow hdp

theorem not_isInside {x : Row} (hx : x ∈ d.rows) : x.label.isInside row.label = false := by
  rw [← Bool.not_eq_true]
  intro hin
  obtain ⟨r, hr, hlabel, hrule, hbackward⟩ := h.headed x hx row.label hin (h.ne_nil row hrow)
  obtain rfl := h.ordered.eq_of_label_eq hr hrow hlabel
  simp [hdp hrule] at hbackward

theorem visibleAt_of_retains {line : Line} (hretains : Retains d.rows row line) {label : Label}
    (hlabel : some label ∈ line.arguments) : label.visibleAt row.label := by
  rcases hretains.cited label hlabel with hlabel | hvisible
  . rcases h.scope row hrow label hlabel with hvisible | ⟨-, k, rfl⟩
    . exact hvisible
    . obtain ⟨i, hi⟩ := List.getElem?_of_mem hrow
      obtain ⟨x, hx, hchild⟩ := List.mem_map.mp (List.mem_of_mem_take (h.earlier i row hi _ hlabel))
      have := h.not_isInside hrow hdp hx
      simp [hchild, Label.isInside_child] at this
  . exact hvisible.1

end Copy

end Regular

def pushed (previous : Stamp) (following : Option Stamp) (row : Row) (after : List Row) :
    List Row :=
  reset following (unlink previous (row.shift row.label 1))
    :: (after.map (Row.shift row.label 1)).map (unlink previous)

section Pushed

variable {before after : List Row} {row : Row} (hroomy : Roomy (before ++ row :: after))
  (previous : Stamp) (following : Option Stamp)
include hroomy

theorem map_label_pushed :
    (pushed previous following row after).map Row.label
      =
    (row :: after).map fun r => Label.moveFrom (· + 1) row.label r.label := by
  rw [← hroomy.map_label_makeRoom (Nat.le_succ 1), makeRoom_eq_shift Nat.zero_lt_one]
  simp [pushed, label_reset, (touched_unlink previous _).label]

theorem exists_image_pushed (h : Ordered (before ++ row :: after)) {x : Row}
    (hx : x ∈ before ++ row :: after) (hlabel : x.label ≠ row.label) :
    ∃ y ∈ before.map (unlink previous) ++ pushed previous following row after,
      y.label = Label.moveFrom (· + 1) row.label x.label
        ∧ y.line.step.rule = x.line.step.rule := by
  obtain ⟨y, hy, hmove, hrule⟩ := hroomy.exists_image_makeRoom (Nat.le_succ 1) h hx hlabel
  rw [makeRoom_eq_shift Nat.zero_lt_one] at hy
  have hy' := List.mem_map_of_mem (f := unlink previous) hy
  rw [List.map_append, List.mem_append] at hy'
  refine ⟨unlink previous y, ?_, ?_, ?_⟩
  . exact List.mem_append.mpr (hy'.imp_right (List.mem_cons_of_mem _))
  . rw [(touched_unlink previous y).label, hmove]
  . rw [(touched_unlink previous y).step, hrule]

end Pushed

theorem map_label_unlink (previous : Stamp) (rows : List Row) :
    (rows.map (unlink previous)).map Row.label = rows.map Row.label := by
  simp [Function.comp_def, (touched_unlink previous _).label]

theorem label_of_mem_singleton {new row r : Row} (hnew : new.label = row.label) {t : Nat}
    (hr : [new][t]? = some r) : r.label = row.label.addLast t := by
  cases t with
  | zero =>
    obtain rfl : new = r := by simpa using hr
    rw [hnew, Label.addLast_zero]
  | succ t => simp at hr

def concluded (previous : Stamp) (following : Option Stamp) (new row : Row)
    (before after : List Row) : List Row :=
  before.map (unlink previous) ++ [new] ++ pushed previous following row after

section Concluded

variable {before after : List Row} {row new : Row} (hroomy : Roomy (before ++ row :: after))
  (harranged : Arranged (before ++ row :: after)) (hnew : new.label = row.label)
  (previous : Stamp) (following : Option Stamp)
include hroomy harranged hnew

theorem arranged_concluded : Arranged (concluded previous following new row before after) :=
  harranged.insert (map_label_unlink previous before) (fun _ _ => label_of_mem_singleton hnew)
    (map_label_pushed hroomy previous following)

theorem standing_concluded
    (hinside : ∀ x ∈ before ++ row :: after, x.label.isInside row.label = false)
    (hstanding : ∀ x ∈ before ++ row :: after, Standing (before ++ row :: after) x.label) :
    ∀ y ∈ concluded previous following new row before after,
      Standing (concluded previous following new row before after) y.label := by
  apply Enclosed.insert harranged (map_label_unlink previous before)
    (fun _ _ => label_of_mem_singleton hnew) (map_label_pushed hroomy previous following) hstanding
  -- Only the row itself can lose its rule, and it closes no subproof.
  . intro x hx hin
    simp [hinside x hx] at hin
  . intro x hx hlabel hrule
    obtain ⟨y, hy, hmove, hsame⟩ :=
      exists_image_pushed hroomy previous following harranged.ordered hx hlabel
    refine ⟨y, ?_, hmove, hsame ▸ hrule⟩
    simp only [List.mem_append] at hy ⊢
    tauto

end Concluded

section Forward

variable {d b : Derivation} {before after : List Row} {row : Row} {line : Line}
  {ps : List Formula} (h : Regular d) (hrows : d.rows = before ++ row :: after)
  (hinside : ∀ x ∈ d.rows, x.label.isInside row.label = false)
  (hforward : line.step.direction = .forward)
  (hvisible : ∀ label, some label ∈ line.arguments → label.visibleAt row.label)
  (hcites : List.Forall₂ (Cites d.rows) line.arguments ps)
include h hrows hvisible hcites

theorem forall₂_cites_before : List.Forall₂ (Cites before) line.arguments ps := by
  have hordered := h.ordered
  apply forall₂_cites_of_image hcites
  intro x hx hlabel
  rw [hrows] at hx hordered
  have hbefore := Label.before_of_visibleAt (hvisible _ hlabel)
  exact ⟨x, hordered.mem_left_of_before hx hbefore, rfl, rfl⟩

include hinside hforward

theorem isCorrect_prune_setLine (hb : b.rows = before ++ ⟨row.label, line⟩ :: after)
    (hconclude : line.step.conclude ps = .ok line.formula) :
    (prune b.rows)[before.length]? = some ⟨row.label, line⟩
      ∧ ({ b with rows := prune b.rows } : Derivation).isCorrect before.length = .ok true := by
  have hbefore := forall₂_cites_before h hrows hvisible hcites
  have hlabels : b.rows.map Row.label = d.rows.map Row.label := by simp [hb, hrows]
  apply isCorrect_prune_of_forward (h.arranged.of_labels hlabels)
  . intro y hy
    obtain ⟨x, hx, heq⟩ := exists_of_mem_of_labels hlabels hy
    have hstanding := h.standing hx
    rw [hrows] at hstanding
    rw [← heq, hb]
    exact hstanding.setLine (hinside x hx) line
  . rw [hb, getElem?_split]
  . exact hforward
  . exact hconclude
  . exact hvisible
  . apply forall₂_cites_of_image hbefore
    intro x hx _
    exact ⟨x, by simp [hb, hx], rfl, rfl⟩

theorem isCorrect_prune_insertConclusion {conclusion : Formula}
    (hconclude : line.step.conclude ps = .ok conclusion) (previous : Stamp)
    (following : Option Stamp)
    (hb : b = d.insertConclusion before.length row.label line conclusion previous following) :
    ({ b with rows := prune b.rows } : Derivation).CorrectAt before.length line := by
  let new := unlink previous ⟨row.label, conclusionLine line conclusion d.stamp⟩
  have htouched : Touched ⟨row.label, conclusionLine line conclusion d.stamp⟩ new :=
    touched_unlink previous _
  have hcited := forall₂_cites_before h hrows hvisible hcites
  have hrows' : b.rows = concluded previous following new row before after := by
    rw [hb, insertConclusion_eq hrows]
    simp [concluded, pushed, new]
  have harranged := h.arranged
  have hroomy := h.roomy
  have hstanding : ∀ x ∈ d.rows, Standing d.rows x.label := fun _ hx => h.standing hx
  rw [hrows] at harranged hroomy hstanding hinside
  have hcorrect : (prune b.rows)[before.length]? = some new
      ∧ ({ b with rows := prune b.rows } : Derivation).isCorrect before.length = .ok true := by
    apply isCorrect_prune_of_forward
    . rw [hrows']
      exact arranged_concluded hroomy harranged htouched.label previous following
    . rw [hrows']
      exact standing_concluded hroomy harranged htouched.label previous following hinside hstanding
    . simp [hrows', concluded]
    . rw [htouched.step]
      exact hforward
    . rw [htouched.step, htouched.formula]
      exact hconclude
    . rw [htouched.label, htouched.arguments]
      exact hvisible
    . rw [htouched.arguments, hrows']
      apply forall₂_cites_of_image hcited
      intro x hx _
      have hx' := List.mem_map_of_mem (f := unlink previous) hx
      refine ⟨unlink previous x, ?_, (touched_unlink previous x).label,
        (touched_unlink previous x).formula⟩
      exact List.mem_append_left _ (List.mem_append_left _ hx')
  exact ⟨new, hcorrect.1, htouched.step, htouched.arguments, hcorrect.2⟩

theorem isCorrect_prune_record {conclusion : Formula}
    (hconclude : line.step.conclude ps = .ok conclusion) (previous : Stamp)
    (following : Option Stamp)
    (hb : b = d.record before.length row.label line conclusion previous following) :
    ({ b with rows := prune b.rows } : Derivation).CorrectAt before.length line := by
  have hset : ∀ line' : Line, b.rows = (d.setLine before.length line').rows →
      line'.step = line.step → line'.arguments = line.arguments → line'.formula = conclusion →
      ({ b with rows := prune b.rows } : Derivation).CorrectAt before.length line := by
    intro line' hb hstep harguments hformula
    rw [setLine, hrows, modify_split] at hb
    rw [← hstep] at hforward hconclude
    rw [← harguments] at hvisible hcites
    rw [← hformula] at hconclude
    obtain ⟨hget, hcorrect⟩ :=
      isCorrect_prune_setLine h hrows hinside hforward hvisible hcites hb hconclude
    exact ⟨_, hget, hstep, harguments, hcorrect⟩
  have hrecorded := recorded_record d before.length row.label line conclusion previous following
  rw [← hb] at hrecorded
  cases hrecorded with
  | rewritten hsource hgenerated => exact hset _ rfl rfl rfl rfl
  | explained hformula => exact hset _ rfl rfl rfl hformula
  | inserted hformula =>
    exact isCorrect_prune_insertConclusion h hrows hinside hforward hvisible hcites hconclude
      previous following rfl

end Forward

section Backward

variable {d b : Derivation} {i : Nat} {row : Row} {source : Stamp} (h : Arranged d.rows)
  (hrow : d.rows[i]? = some row) (hstanding : Standing d.rows row.label)
  (hbackward : row.line.step.direction = .backward)
include h hrow hstanding hbackward

theorem hasCorrect_prune_openSubproof {premise goal : Formula}
    (hrule : row.line.step.rule = some .directProof)
    (hreduce : row.line.step.reduce [row.line.formula] = .ok [premise, goal])
    (hb : b = d.openSubproof i row.label source premise goal) :
    ({ b with rows := prune b.rows } : Derivation).HasCorrect row.line := by
  obtain ⟨before, after, hrows, rfl⟩ := exists_split_of_getElem? hrow
  obtain ⟨outer, rest, row', hbare, hrows', harranged, hstanding'⟩ :=
    exists_rows_openSubproof_eq hrows h hstanding source premise goal
  rw [← hb] at hrows' harranged hstanding'
  have hstep : row'.line.step = row.line.step := congrArg (·.step) hbare
  have hformula : row'.line.formula = row.line.formula := congrArg (·.formula) hbare
  let first : Row := ⟨row.label.child 1, assumptionLine premise d.stamp source⟩
  let second : Row := ⟨row.label.child 2, goalLine goal d.stamp.next source⟩
  let closing : Row := ⟨row.label, { row'.line with
    arguments := [some first.label, some second.label] }⟩
  have hclosing : closing ∈ b.rows := by simp [hrows', closing, first, second]
  have hchild : ∀ k, Standing b.rows (row.label.child k) :=
    hstanding'.child ⟨closing, hclosing, rfl, hstep ▸ hrule⟩
  suffices hcorrect : HasCorrect _ closing.line from
    hcorrect.congr (congrArg (·.stamp) hbare) hformula hstep
  apply hasCorrect_prune_of_backward harranged hclosing hstanding'
  . intro label harg
    have : label = first.label ∨ label = second.label := by simpa [closing] using harg
    rcases this with rfl | rfl
    . exact hchild 1
    . exact hchild 2
  . exact hstep ▸ hbackward
  . exact hstep ▸ hformula ▸ hreduce
  . have hfirst : first ∈ b.rows := by simp [hrows', first]
    have hsecond : second ∈ b.rows := by simp [hrows', second]
    exact .cons ⟨first, hfirst, rfl, rfl⟩ (.cons ⟨second, hsecond, rfl, rfl⟩ .nil)

theorem hasCorrect_prune_supplyGoals {goals : List Formula} (hroomy : Roomy d.rows)
    (hreduce : row.line.step.reduce [row.line.formula] = .ok goals)
    (hb : b = d.supplyGoals i row.label source goals) :
    ({ b with rows := prune b.rows } : Derivation).HasCorrect row.line := by
  obtain ⟨before, after, hrows, rfl⟩ := exists_split_of_getElem? hrow
  obtain ⟨new, arguments, hlen, hnewGoals, hsupplies, heq⟩ :=
    exists_supplyGoals_eq hrows row.label source goals
  rw [heq] at hb
  have hrows' : b.rows = supplied before new after row arguments := by rw [hb, supplied]
  rw [hrows] at h hstanding hroomy
  have hmem : row ∈ before ++ row :: after := by simp
  have hne := h.ne_nil row hmem
  have htwo : new.length ≤ 2 := by
    have hgoals := Step.length_of_reduce_eq_ok hreduce
    have harity := row.line.step.arity_le_two
    omega
  have hnew : ∀ (t : Nat) (r : Row), new[t]? = some r → r.label = row.label.addLast t := by
    intro t r hr
    exact hroomy.label_newGoals hmem htwo hnewGoals hr
  have harranged := h.supplied hroomy htwo arguments hnew
  have hstanding' := hstanding.supplied hroomy htwo h arguments
  rw [← hrows'] at harranged hstanding'
  let row' : Row := ⟨(makeRoom row.label new.length row).label, { row.line with arguments }⟩
  suffices hcorrect : HasCorrect _ row'.line from hcorrect.congr rfl rfl rfl
  apply hasCorrect_prune_of_backward harranged
  . simp [hrows', supplied, row']
  . rw [hroomy.label_makeRoom htwo row.label hmem, Label.moveFrom_add_self]
    exact (enclosed_addLast_iff hne).mpr hstanding'
  . intro label harg
    obtain ⟨goal, -, r, hr, -, hwhere⟩ := exists_left_of_forall₂ hsupplies harg
    obtain rfl : label = r.label := by simpa using hr
    rcases hwhere with ⟨-, hvisible⟩ | hr
    . exact hstanding'.of_visibleAt hvisible
    . obtain ⟨t, ht⟩ := List.getElem?_of_mem hr
      rw [hnew t r ht]
      exact (enclosed_addLast_iff hne).mpr hstanding'
  . exact hbackward
  . exact hreduce
  . apply hsupplies.flip.imp
    rintro arg goal ⟨r, hr, hformula, hwhere⟩
    refine ⟨r, ?_, hr, hformula⟩
    rw [hrows', supplied]
    rcases hwhere with ⟨hr, -⟩ | hr <;> simp [hr]

end Backward

section Expand

variable {d b : Derivation} {i : Nat} {row : Row} {line : Line} (h : Regular d)
  (hrow : d.rows[i]? = some row) (hretains : Retains d.rows row line)
  (hleaves : Leaves d.rows (generated d.rows row.line.stamp))
include h hrow hretains hleaves

theorem Regular.cleared_setLine {rows : List Row} {j : Nat}
    (hremove : removeAround (d.setLine i line).rows i
      (generated (d.setLine i line).rows row.line.stamp) = (rows, j)) :
    Cleared (d.setLine i line).rows ⟨row.label, line⟩ (generated d.rows row.line.stamp) rows j := by
  obtain ⟨before, after, hrows, rfl⟩ := exists_split_of_getElem? hrow
  have hset : (d.setLine before.length line).rows = before ++ ⟨row.label, line⟩ :: after := by
    rw [setLine, hrows, modify_split]
  have hlabels : (d.setLine before.length line).rows.map Row.label = d.rows.map Row.label := by
    simp [hset, hrows]
  have hget : (d.setLine before.length line).rows[before.length]? = some ⟨row.label, line⟩ := by
    rw [hset, getElem?_split]
  have hgenerated : generated (d.setLine before.length line).rows row.line.stamp
      = generated d.rows row.line.stamp := by
    rw [hset, hrows, generated_setLine hretains.link_eq]
  have hstanding : Standing (d.setLine before.length line).rows row.label := by
    have hold := h.standing (List.mem_of_getElem? hrow)
    rw [hrows] at hold
    rw [hset]
    exact hold.setLine (Label.isInside_irrefl _) line
  have hsorted : (generated d.rows row.line.stamp).Pairwise (· < ·) := pairwise_reachedWithin ..
  have hcleared := cleared_removeAround (h.arranged.of_labels hlabels) (h.roomy.of_labels hlabels)
    hget hstanding hsorted (hleaves.of_labels hlabels)
  rw [hgenerated] at hremove
  rwa [hremove] at hcleared

theorem Regular.hasCorrect_prune_expand (hbackward : line.step.direction = .backward)
    (hb : d.expand i line row.line.stamp = .ok b) :
    ({ b with rows := prune b.rows } : Derivation).HasCorrect line := by
  cases expanded_of_expand_eq_ok hb with
  | opened rows j row' premise goal hremove hrow' hreduce hrule =>
    obtain ⟨hall, -, -, target, htarget, hbare, hstanding⟩ :=
      h.cleared_setLine hrow hretains hleaves hremove
    obtain rfl : row' = target := by simpa [hrow'] using htarget
    have hstep : row'.line.step = line.step := congrArg (·.step) hbare
    refine HasCorrect.of_bare ?_ hbare
    exact hasCorrect_prune_openSubproof (d := { d with rows }) hall hrow' hstanding
      (hstep ▸ hbackward) hrule hreduce rfl
  | supplied rows j row' goals hremove hrow' hreduce =>
    obtain ⟨hall, hroomy, -, target, htarget, hbare, hstanding⟩ :=
      h.cleared_setLine hrow hretains hleaves hremove
    obtain rfl : row' = target := by simpa [hrow'] using htarget
    have hstep : row'.line.step = line.step := congrArg (·.step) hbare
    refine HasCorrect.of_bare ?_ hbare
    exact hasCorrect_prune_supplyGoals (d := { d with rows }) hall hrow' hstanding
      (hstep ▸ hbackward) hroomy hreduce rfl

end Expand

section Edit

variable {d next : Derivation} {i : Nat} {row : Row} {line : Line} {change : Change}

theorem exists_replaceLine_of_apply (hrow : d.rows[i]? = some row)
    (hcopy : d.changed i row change = .ok line)
    (hnext : d.apply ⟨i, .change change⟩ = .ok next) :
    ∃ b, d.replaceLine i row line = .ok b ∧ next = { b with rows := prune b.rows } := by
  cases applied_of_apply_eq_ok hnext with
  | toggled _ _ haction => simp at haction
  | deleted _ _ haction _ => simp at haction
  | changed row' hrow' change' haction line' hline' b hb =>
    obtain rfl : row = row' := by simpa [hrow] using hrow'
    obtain rfl : change = change' := by simpa using haction
    obtain rfl : line = line' := by simpa [hcopy] using hline'
    exact ⟨b, hb, rfl⟩

theorem Regular.correctAt_of_forward {b : Derivation} {premises : List Formula} (h : Regular d)
    (hrow : d.rows[i]? = some row) (haltered : Altered d.rows row line)
    (hcomplete : line.step.isComplete = true) (hforward : line.step.direction = .forward)
    (hcited : d.cited line.arguments = .ok (some premises))
    (hfits : line.step.fits premises = true) (hb : d.replaceLine i row line = .ok b) :
    ({ b with rows := prune b.rows } : Derivation).CorrectAt i line := by
  obtain ⟨conclusion, hconclude⟩ := Step.exists_conclude_eq_ok hcomplete hforward hfits
  have hb : d.record i row.label line conclusion row.line.stamp _ = b :=
    Except.ok.inj ((replaceLine_of_forward hcomplete hforward hcited hfits hconclude).symm.trans hb)
  have hmem := List.mem_of_getElem? hrow
  have hdp := haltered.direction_of_directProof hforward hcomplete
  obtain ⟨before, after, hrows, rfl⟩ := exists_split_of_getElem? hrow
  exact isCorrect_prune_record h hrows (fun _ => h.not_isInside hmem hdp) hforward
    (fun _ => h.visibleAt_of_retains hmem hdp (retains_of_altered haltered))
    (cites_of_cited_eq_ok hcited) hconclude _ _ hb.symm

theorem Regular.eq_of_stamp_eq {edit : Edit} {j k : Nat} {r r' : Row} (h : Regular d)
    (hstamp : ∀ r ∈ d.rows, r.line.stamp.number < d.stamp.number)
    (hnext : d.apply edit = .ok next) (hr : next.rows[j]? = some r) (hr' : next.rows[k]? = some r')
    (heq : r'.line.stamp = r.line.stamp) : k = j := by
  -- Fresh stamps do not collide with those of the lines, so a stamp is found at one index only.
  have hnumbered : d.ledger.Numbered := by
    refine ⟨?_, ?_⟩
    . simpa [ledger, Line.entry, Function.comp_def] using h.distinct
    . simpa [ledger, Line.entry] using hstamp
  have hmoves := (moves_of_apply_eq_ok hnext).ledger
  rw [ledger_sketch, ledger_sketch] at hmoves
  have hdistinct : (next.rows.map fun r => r.line.stamp).Nodup := by
    simpa [ledger, Line.entry, Function.comp_def] using (hnumbered.of_moves hmoves).distinct
  have hk : k < (next.rows.map fun r => r.line.stamp).length := by
    simpa using (List.getElem?_eq_some_iff.mp hr').1
  apply (List.getElem?_inj hk hdistinct).mp
  simp [hr, hr', heq]

/--
A change that completes a step makes the line correct: a forward line at its index, and a backward
line wherever its stamp is afterwards.
-/
theorem correct_of_completed (h : Regular d) (hrow : d.rows[i]? = some row)
    (hcopy : d.changed i row change = .ok line)
    (hnext : d.apply ⟨i, .change change⟩ = .ok next)
    (hcomplete : line.step.isComplete = true) :
    (line.step.direction = .forward →
      ∀ premises, d.cited line.arguments = .ok (some premises) →
        line.step.fits premises = true → next.CorrectAt i line)
    ∧ (line.step.direction = .backward → line.step.fits [line.formula] = true →
      (∀ j ∈ generated d.rows row.line.stamp, ∀ r, d.rows[j]? = some r →
        ∀ x ∈ d.rows, x.label.isInside r.label = false) →
      ∃ j row', next.rows[j]? = some row' ∧ row'.line.stamp = row.line.stamp
        ∧ row'.line.formula = row.line.formula ∧ row'.line.step = line.step
        ∧ next.isCorrect j = .ok true
        ∧ ((∀ r ∈ d.rows, r.line.stamp.number < d.stamp.number) →
          ∀ k r, next.rows[k]? = some r → r.line.stamp = row.line.stamp → k = j)) := by
  have haltered := altered_of_changed hcopy
  have hretains := retains_of_altered haltered
  obtain ⟨b, hb, rfl⟩ := exists_replaceLine_of_apply hrow hcopy hnext
  refine ⟨?_, ?_⟩
  . intro hforward premises hcited hfits
    exact h.correctAt_of_forward hrow haltered hcomplete hforward hcited hfits hb
  . intro hbackward hfits hinside
    rw [replaceLine_of_backward hcomplete hbackward hfits] at hb
    have hleaves : Leaves d.rows (generated d.rows row.line.stamp) := by
      intro j hj
      obtain ⟨r, hr, -⟩ := exists_source_of_mem_reachedWithin hj
      exact ⟨r, hr, hinside j hj r hr⟩
    obtain ⟨j, row', hget, hstamp, hformula, hstep, hcorrect⟩ :=
      h.hasCorrect_prune_expand hrow hretains hleaves hbackward hb
    rw [hretains.stamp] at hstamp
    rw [hretains.formula] at hformula
    refine ⟨j, row', hget, hstamp, hformula, hstep, hcorrect, ?_⟩
    intro hlt k r hk hr
    exact h.eq_of_stamp_eq hlt hnext hget hk (hr.trans hstamp.symm)

def underway : Derivation where
  start := .conj (.const true) (.const false)
  goal := .imp (.neg (.const true)) (.const true)
  rows :=
    [⟨⟨[1]⟩, .new (.conj (.const true) (.const false)) ⟨0⟩ .assumption true false⟩,
      ⟨⟨[2, 1]⟩, assumptionLine (.neg (.const true)) ⟨2⟩ ⟨1⟩⟩,
      ⟨⟨[2, 2]⟩, { goalLine (.const true) ⟨3⟩ ⟨1⟩ with
        step := { Step.ofRule (some .elimAnd) .forward with side := some .left }
        arguments := [none] }⟩,
      ⟨⟨[2]⟩, { Line.new (.imp (.neg (.const true)) (.const true)) ⟨1⟩
          (.ofRule (some .directProof) .backward) true true with
        arguments := [some ⟨[2, 1]⟩, some ⟨[2, 2]⟩] }⟩]
  stamp := ⟨4⟩

theorem regular_underway : Regular underway where
  ordered := by
    unfold Ordered
    decide
  ne_nil := by decide
  roomy := by
    unfold Roomy
    decide
  distinct := by decide
  earlier := by
    intro i row hrow label hlabel
    rcases i with _ | _ | _ | _ | i
    all_goals cases hrow
    . simp [Line.new] at hlabel
    . simp [assumptionLine, Line.new] at hlabel
    . simp at hlabel
    . have : label = ⟨[2, 1]⟩ ∨ label = ⟨[2, 2]⟩ := by simpa using hlabel
      simp [labels, underway, this]
  scope := by
    intro row hrow label hlabel
    simp only [underway, List.mem_cons, List.not_mem_nil, or_false] at hrow
    rcases hrow with rfl | rfl | rfl | rfl
    . simp [Line.new] at hlabel
    . simp [assumptionLine, Line.new] at hlabel
    . simp at hlabel
    . have : label = Label.child ⟨[2]⟩ 1 ∨ label = Label.child ⟨[2]⟩ 2 := by
        simpa [Label.child] using hlabel
      rcases this with rfl | rfl
      . exact .inr ⟨rfl, 1, rfl⟩
      . exact .inr ⟨rfl, 2, rfl⟩
  headed := by
    intro row hrow header hin hne
    -- Only `2` is the first part of a label with two parts.
    obtain rfl : header = ⟨[2]⟩ := by
      simp only [underway, List.mem_cons, List.not_mem_nil, or_false] at hrow
      rcases header with ⟨_ | ⟨x, _ | ⟨y, rest⟩⟩⟩
      . exact absurd rfl hne
      . rcases hrow with rfl | rfl | rfl | rfl <;> simp_all [Label.isInside, Label.isInside.go]
      . rcases hrow with rfl | rfl | rfl | rfl <;> simp [Label.isInside, Label.isInside.go] at hin
    exact ⟨_, List.mem_of_getElem? (i := 3) rfl, rfl, rfl, rfl⟩

theorem underway_correct_of_completed :
    Regular underway
      ∧ (∃ next, underway.apply ⟨2, .change (.setArgument 0 (some ⟨[1]⟩))⟩ = .ok next
        ∧ next.isCorrect 2 = .ok true)
      ∧ ∃ next, underway.apply ⟨3, .change (.setRule (some .directProof))⟩ = .ok next
        ∧ ∃ j row, next.rows[j]? = some row ∧ row.line.stamp = ⟨1⟩
          ∧ next.isCorrect j = .ok true := by
  refine ⟨regular_underway, ?_, ?_⟩
  . obtain ⟨next, hnext⟩ : ∃ next,
        underway.apply ⟨2, .change (.setArgument 0 (some ⟨[1]⟩))⟩ = .ok next := ⟨_, rfl⟩
    have hcorrect := correct_of_completed (i := 2) regular_underway rfl rfl hnext (by decide)
    obtain ⟨-, -, -, -, hok⟩ := hcorrect.1 rfl _ rfl (by decide)
    exact ⟨next, hnext, hok⟩
  . obtain ⟨next, hnext⟩ : ∃ next,
        underway.apply ⟨3, .change (.setRule (some .directProof))⟩ = .ok next := ⟨_, rfl⟩
    have hcorrect := correct_of_completed (i := 3) regular_underway rfl rfl hnext (by decide)
    obtain ⟨j, row, hget, hstamp, -, -, hok, -⟩ := hcorrect.2 rfl (by decide) (by decide)
    exact ⟨next, hnext, j, row, hget, hstamp, hok⟩

end Edit

end ProofDesk.Derivation
