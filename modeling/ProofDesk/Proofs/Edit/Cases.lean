import ProofDesk.Derivation.Edit
import ProofDesk.Proofs.Check
import ProofDesk.Proofs.Editing

/-!
This module contains what an accepted edit can do to a derivation: one relation for each function on
the way from `apply` to the rows, with a case for each way through it. The later modules use these
cases instead of the functions.
-/

namespace ProofDesk.Derivation

variable {d next : Derivation} {i : Nat} {row : Row} {line : Line}

inductive Applied (d : Derivation) (edit : Edit) : Derivation → Prop where
  | toggled (row : Row) (hrow : d.rows[edit.line]? = some row)
      (haction : edit.action = .toggleEditing) :
      Applied d edit (d.setLine edit.line { row.line with editing := !row.line.editing })
  | deleted (row : Row) (hrow : d.rows[edit.line]? = some row) (haction : edit.action = .delete)
      (hfixed : row.line.fixed = false) :
      Applied d edit { d with rows := prune (removeRow d.rows edit.line) }
  | changed (row : Row) (hrow : d.rows[edit.line]? = some row) (change : Change)
      (haction : edit.action = .change change) (line : Line)
      (hline : d.changed edit.line row change = .ok line) (next : Derivation)
      (hnext : d.replaceLine edit.line row line = .ok next) :
      Applied d edit { next with rows := prune next.rows }

theorem applied_of_apply_eq_ok {edit : Edit} (h : d.apply edit = .ok next) :
    Applied d edit next := by
  unfold apply at h
  obtain ⟨row, hok, h⟩ := exists_of_bind_eq_ok h
  have hrow := row_eq_ok.mp hok
  split at h
  . next haction =>
    simp only [Except.ok.injEq] at h
    exact h ▸ .toggled row hrow haction
  . next haction =>
    unfold delete at h
    split at h
    . simp at h
    . next hfixed =>
      simp only [Except.ok.injEq] at h
      exact h ▸ .deleted row hrow haction (by simpa using hfixed)
  . next change haction =>
    obtain ⟨line, hline, h⟩ := exists_of_bind_eq_ok h
    unfold update at h
    obtain ⟨row', hok', h⟩ := exists_of_bind_eq_ok h
    have : row = row' := by simpa [hok] using hok'
    subst this
    obtain ⟨between, hbetween, h⟩ := exists_of_bind_eq_ok h
    simp only [pure, Except.pure, Except.ok.injEq] at h
    exact h ▸ .changed row hrow change haction line hline between hbetween

section Row

variable (hrow : d.rows[i]? = some row)
include hrow

theorem apply_change (change : Change) :
    d.apply ⟨i, .change change⟩ = d.changed i row change >>= d.update i := by
  simp [apply, row_eq_ok.mpr hrow, bind, Except.bind]

theorem update_eq_bind (line : Line) :
    d.update i line
      =
    d.replaceLine i row line >>= fun next => .ok { next with rows := prune next.rows } := by
  simp [update, row_eq_ok.mpr hrow, bind, Except.bind, pure, Except.pure]

end Row

inductive Replaced (d : Derivation) (i : Nat) (row : Row) (line : Line) : Derivation → Prop where
  | stored (hfits : line.step.isComplete = true → line.step.direction = .backward →
        line.step.fits [line.formula] = false) :
      Replaced d i row line (d.setLine i line)
  | expanded (next : Derivation) (hcomplete : line.step.isComplete = true)
      (hdirection : line.step.direction = .backward)
      (hfits : line.step.fits [line.formula] = true)
      (hnext : d.expand i line row.line.stamp = .ok next) :
      Replaced d i row line next
  | recorded (premises : List Formula) (conclusion : Formula)
      (hcomplete : line.step.isComplete = true) (hdirection : line.step.direction = .forward)
      (hcited : d.cited line.arguments = .ok (some premises))
      (hconclude : line.step.conclude premises = .ok conclusion) :
      Replaced d i row line
        (d.record i row.label line conclusion row.line.stamp
          (d.rows[i + 1]?.map (·.line.stamp)))

theorem replaced_of_replaceLine_eq_ok (h : d.replaceLine i row line = .ok next) :
    Replaced d i row line next := by
  unfold replaceLine at h
  split at h
  . next hcomplete =>
    split at h
    . next hdirection =>
      unfold updateBackward at h
      split at h
      . next hfits => exact .expanded next hcomplete hdirection hfits h
      . next hfits =>
        simp only [Except.ok.injEq] at h
        exact h ▸ .stored fun _ _ => by simpa using hfits
    . next hdirection =>
      unfold updateForward at h
      obtain ⟨premises, hcited, h⟩ := exists_of_bind_eq_ok h
      split at h
      . next premises =>
        split at h
        . obtain ⟨conclusion, hconclude, h⟩ := exists_of_bind_eq_ok h
          simp only [pure, Except.pure, Except.ok.injEq] at h
          exact h ▸ .recorded premises conclusion hcomplete hdirection hcited
            (liftStep_eq_ok.mp hconclude)
        . simp only [Except.ok.injEq] at h
          exact h ▸ .stored fun _ hb => by simp [hdirection] at hb
      . simp only [Except.ok.injEq] at h
        exact h ▸ .stored fun _ hb => by simp [hdirection] at hb
  . next hcomplete =>
    simp only [Except.ok.injEq] at h
    exact h ▸ .stored fun hc => absurd hc hcomplete

section Fits

variable (hcomplete : line.step.isComplete = true)
include hcomplete

theorem replaceLine_of_backward (hdirection : line.step.direction = .backward)
    (hfits : line.step.fits [line.formula] = true) :
    d.replaceLine i row line = d.expand i line row.line.stamp := by
  simp [replaceLine, hcomplete, hdirection, updateBackward, hfits]

theorem update_of_backward {b : Derivation} (hrow : d.rows[i]? = some row)
    (hdirection : line.step.direction = .backward)
    (hfits : line.step.fits [line.formula] = true)
    (hb : d.expand i line row.line.stamp = .ok b) :
    d.update i line = .ok { b with rows := prune b.rows } := by
  rw [update_eq_bind hrow, replaceLine_of_backward hcomplete hdirection hfits, hb]
  rfl

theorem replaceLine_of_forward {premises : List Formula} {conclusion : Formula}
    (hdirection : line.step.direction = .forward)
    (hcited : d.cited line.arguments = .ok (some premises))
    (hfits : line.step.fits premises = true)
    (hconclude : line.step.conclude premises = .ok conclusion) :
    d.replaceLine i row line
      =
    .ok (d.record i row.label line conclusion row.line.stamp
      (d.rows[i + 1]?.map (·.line.stamp))) := by
  simp [replaceLine, hcomplete, hdirection, updateForward, hcited, hfits, hconclude, liftStep, bind,
    Except.bind, pure, Except.pure]

end Fits

inductive Expanded (d : Derivation) (i : Nat) (line : Line) (previous : Stamp) :
    Derivation → Prop where
  | opened (rows : List Row) (j : Nat) (row : Row) (premise goal : Formula)
      (hrows : removeAround (d.setLine i line).rows i (generated (d.setLine i line).rows previous)
        = (rows, j))
      (hrow : rows[j]? = some row)
      (hreduce : row.line.step.reduce [row.line.formula] = .ok [premise, goal])
      (hrule : row.line.step.rule = some .directProof) :
      Expanded d i line previous
        ({ d with rows }.openSubproof j row.label line.stamp premise goal)
  | supplied (rows : List Row) (j : Nat) (row : Row) (goals : List Formula)
      (hrows : removeAround (d.setLine i line).rows i (generated (d.setLine i line).rows previous)
        = (rows, j))
      (hrow : rows[j]? = some row)
      (hreduce : row.line.step.reduce [row.line.formula] = .ok goals)
      (hrule : row.line.step.rule ≠ some .directProof) :
      Expanded d i line previous
        ({ d with rows }.supplyGoals j row.label line.stamp goals)

theorem expanded_of_expand_eq_ok {previous : Stamp} (h : d.expand i line previous = .ok next) :
    Expanded d i line previous next := by
  unfold expand at h
  obtain ⟨row, hrow, h⟩ := exists_of_bind_eq_ok h
  have hrow := row_eq_ok.mp hrow
  obtain ⟨goals, hreduce, h⟩ := exists_of_bind_eq_ok h
  have hreduce := liftStep_eq_ok.mp hreduce
  split at h
  . next hrule =>
    match goals, h with
    | [premise, goal], h =>
      simp only [Except.ok.injEq] at h
      exact h ▸ .opened _ _ row premise goal rfl hrow hreduce hrule
    | [], h | [_], h | _ :: _ :: _ :: _, h => simp at h
  . next hrule =>
    simp only [Except.ok.injEq] at h
    exact h ▸ .supplied _ _ row goals rfl hrow hreduce hrule

section Expand

variable {previous : Stamp} {rows : List Row} {j : Nat} {target : Row}
  (hremove : removeAround (d.setLine i line).rows i (generated (d.setLine i line).rows previous)
    = (rows, j))
  (htarget : rows[j]? = some target)
include hremove htarget

theorem expand_of_directProof {premise goal : Formula}
    (hreduce : target.line.step.reduce [target.line.formula] = .ok [premise, goal])
    (hrule : target.line.step.rule = some .directProof) :
    d.expand i line previous
      =
    .ok ({ d with rows }.openSubproof j target.label line.stamp premise goal) := by
  have hrow : ({ d.setLine i line with rows } : Derivation).row j = .ok target :=
    row_eq_ok.mpr htarget
  simp only [expand, hremove, hrow, hreduce, liftStep, hrule, bind, Except.bind, if_true]
  rfl

theorem expand_of_ne_directProof {goals : List Formula}
    (hreduce : target.line.step.reduce [target.line.formula] = .ok goals)
    (hrule : target.line.step.rule ≠ some .directProof) :
    d.expand i line previous
      =
    .ok ({ d with rows }.supplyGoals j target.label line.stamp goals) := by
  have hrow : ({ d.setLine i line with rows } : Derivation).row j = .ok target :=
    row_eq_ok.mpr htarget
  simp only [expand, hremove, hrow, hreduce, liftStep, hrule, bind, Except.bind, if_false]
  rfl

end Expand

inductive Recorded (d : Derivation) (i : Nat) (label : Label) (line : Line) (conclusion : Formula)
    (previous : Stamp) (following : Option Stamp) : Derivation → Prop where
  | rewritten (hsource : line.source = some previous)
      (hgenerated : generated d.rows previous = []) :
      Recorded d i label line conclusion previous following
        { d.setLine i { line with
            formula := conclusion
            stamp := d.stamp
            source := some d.stamp } with
          stamp := d.stamp.next }
  | explained (hformula : line.formula = conclusion) :
      Recorded d i label line conclusion previous following
        (d.setLine i { line with source := some (line.source.getD line.stamp) })
  | inserted (hformula : line.formula ≠ conclusion) :
      Recorded d i label line conclusion previous following
        (d.insertConclusion i label line conclusion previous following)

theorem recorded_record (d : Derivation) (i : Nat) (label : Label) (line : Line)
    (conclusion : Formula) (previous : Stamp) (following : Option Stamp) :
    Recorded d i label line conclusion previous following
      (d.record i label line conclusion previous following) := by
  unfold record
  split
  . next h => exact .rewritten h.1 h.2
  . split
    . next h => exact .explained h
    . next h => exact .inserted h

end ProofDesk.Derivation
