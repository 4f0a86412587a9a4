import Mathlib.Logic.Relation
import ProofDesk.Proofs.Edit.Cases
import ProofDesk.Proofs.Edit.Conclusion
import ProofDesk.Proofs.Edit.Copy
import ProofDesk.Proofs.Edit.Remove
import ProofDesk.Proofs.Edit.Supply

/-!
This module contains what an accepted edit does to the lines of a derivation, whatever becomes of
labels and citations: it drops lines, changes lines in their place, and puts in new ones under fresh
stamps. It is stated for every derivation, orderly or not.
-/

namespace ProofDesk.Derivation

inductive Variant : Line → Line → Prop where
  | same (line : Line) : Variant line line
  | shown (line : Line) (editing : Bool) : Variant line { line with editing }
  | unlinked (line : Line) : Variant line { line with source := none }
  | linked (line : Line) : Variant line { line with source := some line.stamp }
  | filled (line : Line) (arguments : List (Option Label))
      (hlen : arguments.length = line.step.arity) : Variant line { line with arguments }
  | reset (line : Line) :
      Variant line (.new line.formula line.stamp (.unknown .forward) line.fixed line.editable)
  | copied (rows : List Row) (row : Row) (heditable : row.line.editable = true) (line : Line)
      (hline : Altered rows row line) (label : Label) : Variant (bare row) (bare ⟨label, line⟩)

inductive Fresh (before after : List Line) (stamp : Stamp) : Line → Prop where
  | goal (target : Line) (htarget : target ∈ after) (goal : Formula) :
      Fresh before after stamp (goalLine goal stamp target.stamp)
  | assumption (target : Line) (htarget : target ∈ after) (premise : Formula) :
      Fresh before after stamp (assumptionLine premise stamp target.stamp)
  | conclusion (rows : List Row) (row : Row) (hrow : bare row ∈ before ++ after)
      (heditable : row.line.editable = true) (line : Line) (hline : Altered rows row line)
      (label : Label) (conclusion : Formula) (fixed editable : Bool) :
      Fresh before after stamp
        (bare ⟨label, { line with
          formula := conclusion, fixed, editable, stamp, source := some stamp }⟩)

structure Outline where
  lines : List Line
  stamp : Stamp

def outline (rows : List Row) (stamp : Stamp) : Outline :=
  ⟨rows.map bare, stamp⟩

namespace Outline

inductive Move : Outline → Outline → Prop where
  | drop (lines kept : List Line) (stamp : Stamp) (hsub : kept.Sublist lines) :
      Move ⟨lines, stamp⟩ ⟨kept, stamp⟩
  | revise (lines lines' : List Line) (stamp : Stamp) (hrel : List.Forall₂ Variant lines lines') :
      Move ⟨lines, stamp⟩ ⟨lines', stamp⟩
  | insert (before after : List Line) (stamp : Stamp) (line : Line)
      (hfresh : Fresh before after stamp line) :
      Move ⟨before ++ after, stamp⟩ ⟨before ++ line :: after, stamp.next⟩

def Moves : Outline → Outline → Prop :=
  Relation.ReflTransGen Move

theorem Moves.trans {o o' o'' : Outline} (h : Moves o o') (h' : Moves o' o'') : Moves o o'' :=
  Relation.ReflTransGen.trans h h'

theorem Moves.forall_lines {o o' : Outline} {motive : Line → Prop}
    (hvariant : ∀ a b, Variant a b → motive a → motive b)
    (hfresh : ∀ before after stamp line, Fresh before after stamp line →
      (∀ l ∈ before ++ after, motive l) → motive line)
    (hmoves : Moves o o') (h : ∀ line ∈ o.lines, motive line) : ∀ line ∈ o'.lines, motive line := by
  induction hmoves with
  | refl => exact h
  | tail _ hmove ih =>
    cases hmove with
    | drop lines kept stamp hsub => exact fun line hline => ih line (hsub.subset hline)
    | revise lines lines' stamp hrel =>
      intro line hline
      obtain ⟨a, ha, hvariants⟩ := exists_left_of_forall₂ hrel hline
      exact hvariant a line hvariants (ih a ha)
    | insert before after stamp new hnew =>
      intro line hline
      rcases List.mem_cons.mp (List.perm_middle.mem_iff.mp hline) with rfl | hline
      . exact hfresh before after stamp line hnew ih
      . exact ih line hline

end Outline

open Outline

@[simp]
theorem formula_bare (row : Row) : (bare row).formula = row.line.formula := by
  rfl

@[simp]
theorem step_bare (row : Row) : (bare row).step = row.line.step := by
  rfl

@[simp]
theorem stamp_bare (row : Row) : (bare row).stamp = row.line.stamp := by
  rfl

@[simp]
theorem length_arguments_bare (row : Row) :
    (bare row).arguments.length = row.line.arguments.length := by
  simp [bare]

theorem bare_eq_self {row : Row} {n : Nat} (h : row.line.arguments = List.replicate n none) :
    bare row = row.line := by
  have hargs : List.replicate row.line.arguments.length none = row.line.arguments := by simp [h]
  rw [bare, hargs]

theorem bare_goalLine (label : Label) (goal : Formula) (stamp source : Stamp) :
    bare ⟨label, goalLine goal stamp source⟩ = goalLine goal stamp source :=
  bare_eq_self rfl

theorem bare_assumptionLine (label : Label) (premise : Formula) (stamp source : Stamp) :
    bare ⟨label, assumptionLine premise stamp source⟩ = assumptionLine premise stamp source :=
  bare_eq_self rfl

@[simp]
theorem bare_makeRoom (base : Label) (n : Nat) (row : Row) :
    bare (makeRoom base n row) = bare row := by
  unfold makeRoom
  split <;> simp

section Rows

variable {stamp : Stamp} {rows rows' before after : List Row} {row row' : Row}

theorem moves_of_map_bare_eq (h : rows'.map bare = rows.map bare) :
    Moves (outline rows stamp) (outline rows' stamp) := by
  rw [outline, outline, h]
  exact .refl

theorem moves_of_sublist (h : (rows'.map bare).Sublist (rows.map bare)) :
    Moves (outline rows stamp) (outline rows' stamp) :=
  .single (.drop _ _ _ h)

theorem moves_revise (h : List.Forall₂ (fun a b => Variant (bare a) (bare b)) rows rows') :
    Moves (outline rows stamp) (outline rows' stamp) := by
  refine .single (.revise _ _ _ ?_)
  rw [List.forall₂_map_left_iff, List.forall₂_map_right_iff]
  exact h

theorem moves_replace (h : Variant (bare row) (bare row')) :
    Moves (outline (before ++ row :: after) stamp) (outline (before ++ row' :: after) stamp) := by
  have hsame : ∀ rows : List Row, List.Forall₂ (fun a b => Variant (bare a) (bare b)) rows rows :=
    fun rows => List.forall₂_same.mpr fun row _ => .same (bare row)
  exact moves_revise (List.rel_append (hsame before) (.cons h (hsame after)))

theorem moves_insert (h : Fresh (before.map bare) (after.map bare) stamp (bare row)) :
    Moves (outline (before ++ after) stamp) (outline (before ++ row :: after) stamp.next) := by
  simp only [outline, List.map_append, List.map_cons]
  exact .single (.insert _ _ _ _ h)

theorem moves_newGoals {base : Label} {source : Stamp} {goals : List Formula} {new : List Row}
    (hnew : NewGoals base stamp source goals new)
    (hsource : ∃ row ∈ after, row.line.stamp = source) :
    Moves (outline (before ++ after) stamp)
      (outline (before ++ new ++ after) ⟨stamp.number + new.length⟩) := by
  induction new using List.reverseRecOn with
  | nil =>
    rw [List.append_nil]
    exact .refl
  | append_singleton new row ih =>
    have hinit : NewGoals base stamp source goals new := by
      intro t r hr
      apply hnew t r
      have ht := (List.getElem?_eq_some_iff.mp hr).1
      rwa [List.getElem?_append_left ht]
    obtain ⟨goal, -, hrow⟩ := hnew new.length row (by simp)
    obtain ⟨target, htarget, rfl⟩ := hsource
    have hfresh : Fresh ((before ++ new).map bare) (after.map bare) ⟨stamp.number + new.length⟩
        (bare row) := by
      rw [hrow, bare_goalLine]
      exact .goal (bare target) (List.mem_map_of_mem htarget) goal
    have := (ih hinit).trans (moves_insert hfresh)
    simpa [Stamp.next, Nat.add_assoc] using this

end Rows

variable {d next : Derivation}

def sketch (d : Derivation) : Outline :=
  outline d.rows d.stamp

section Expand

variable {before after : List Row} {row : Row} (hrows : d.rows = before ++ row :: after)
include hrows

theorem moves_supplyGoals (base : Label) {goals : List Formula}
    (hreduce : row.line.step.reduce [row.line.formula] = .ok goals) :
    Moves d.sketch (d.supplyGoals before.length base row.line.stamp goals).sketch := by
  obtain ⟨new, arguments, -, hnew, hargs, heq⟩ :=
    exists_supplyGoals_eq hrows base row.line.stamp goals
  have hgoals : Moves (outline (before ++ row :: after) d.stamp)
      (outline (before ++ new ++ row :: after) ⟨d.stamp.number + new.length⟩) :=
    moves_newGoals hnew ⟨row, List.mem_cons_self, rfl⟩
  have hroom : Moves (outline (before ++ new ++ row :: after) ⟨d.stamp.number + new.length⟩)
      (outline (before ++ new ++ row :: after.map (makeRoom base new.length))
        ⟨d.stamp.number + new.length⟩) :=
    moves_of_map_bare_eq (by simp [map_bare_eq (bare_makeRoom base new.length)])
  have hlen : arguments.length = row.line.step.arity := by
    rw [← hargs.length_eq]
    exact Step.length_of_reduce_eq_ok hreduce
  rw [sketch, hrows, heq]
  refine (hgoals.trans hroom).trans (moves_replace ?_)
  exact .filled (bare row) _ ((List.length_replicate ..).trans hlen)

theorem moves_openSubproof (header : Label) {premise goal : Formula}
    (hreduce : row.line.step.reduce [row.line.formula] = .ok [premise, goal]) :
    Moves d.sketch (d.openSubproof before.length header row.line.stamp premise goal).sketch := by
  obtain ⟨before', row', after', hbefore, hrow', hafter, heq⟩ :=
    exists_openSubproof_eq hrows header row.line.stamp premise goal
  have hdrop : Moves d.sketch (outline (before' ++ row' :: after') d.stamp) := by
    apply moves_of_sublist
    rw [hrows, List.map_append, List.map_append, List.map_cons, List.map_cons, hrow', hafter]
    exact hbefore.append (List.Sublist.refl _)
  have hstamp : row.line.stamp = (bare row').stamp := (congrArg Line.stamp hrow').symm
  have hlen : 2 = (bare row').step.arity := by
    rw [hrow']
    exact Step.length_of_reduce_eq_ok hreduce
  let target : Row := ⟨row'.label, { row'.line with
    arguments := [some (header.child 1), some (header.child 2)] }⟩
  let first : Row := ⟨header.child 1, assumptionLine premise d.stamp row.line.stamp⟩
  let second : Row := ⟨header.child 2, goalLine goal d.stamp.next row.line.stamp⟩
  have hfilled : Variant (bare row') (bare target) := .filled (bare row') [none, none] hlen
  have htarget : bare target ∈ (target :: after').map bare := by simp
  have hfirst : Fresh (before'.map bare) ((target :: after').map bare) d.stamp (bare first) := by
    rw [bare_assumptionLine, hstamp]
    exact .assumption _ htarget premise
  have hsecond : Fresh ((before' ++ [first]).map bare) ((target :: after').map bare) d.stamp.next
      (bare second) := by
    rw [bare_goalLine, hstamp]
    exact .goal _ htarget goal
  have hmoves := (hdrop.trans (moves_replace hfilled)).trans (moves_insert hfirst)
  rw [List.append_cons before' first] at hmoves
  have := hmoves.trans (moves_insert hsecond)
  rw [← List.append_cons before' first] at this
  rw [heq]
  exact this

end Expand

theorem sketch_setLine {before after : List Row} {row : Row}
    (hrows : d.rows = before ++ row :: after) (line : Line) :
    (d.setLine before.length line).sketch
      =
    outline (before ++ ⟨row.label, line⟩ :: after) d.stamp := by
  simp only [sketch, setLine, hrows, modify_split]

theorem moves_setLine {i : Nat} {row : Row} {line : Line} (hrow : d.rows[i]? = some row)
    (h : Variant (bare row) (bare ⟨row.label, line⟩)) :
    Moves d.sketch (d.setLine i line).sketch := by
  obtain ⟨before, after, hrows, rfl⟩ := exists_split_of_getElem? hrow
  rw [sketch_setLine hrows, sketch, hrows]
  exact moves_replace h

theorem exists_removeAround_setLine {i j : Nat} {row : Row} {line : Line} {doomed : List Nat}
    {rows : List Row} (hrow : d.rows[i]? = some row)
    (hrows : removeAround (d.setLine i line).rows i doomed = (rows, j)) :
    (rows.map bare).Sublist ((d.setLine i line).rows.map bare)
      ∧ ∃ row', rows[j]? = some row' ∧ bare row' = bare ⟨row.label, line⟩ := by
  have hremove := map_bare_removeAround (d.setLine i line).rows i doomed
  have hget : ((d.setLine i line).rows.map bare)[i]? = some (bare ⟨row.label, line⟩) := by
    simp [setLine, hrow]
  rw [hrows, hget, List.getElem?_map] at hremove
  exact ⟨hremove.1, Option.map_eq_some_iff.mp hremove.2⟩

theorem stamp_of_removeAround_setLine {i j : Nat} {row row' : Row} {line : Line}
    {doomed : List Nat} {rows : List Row} (hrow : d.rows[i]? = some row)
    (hrows : removeAround (d.setLine i line).rows i doomed = (rows, j))
    (hrow' : rows[j]? = some row') :
    (rows.map bare).Sublist ((d.setLine i line).rows.map bare)
      ∧ row'.line.stamp = line.stamp := by
  obtain ⟨hsub, row'', hrow'', hbare⟩ := exists_removeAround_setLine hrow hrows
  obtain rfl : row' = row'' := by simpa [hrow'] using hrow''
  exact ⟨hsub, by simpa using congrArg Line.stamp hbare⟩

theorem moves_expanded {i : Nat} {row : Row} {line : Line} {previous : Stamp}
    (hrow : d.rows[i]? = some row) (h : Expanded d i line previous next) :
    Moves (d.setLine i line).sketch next.sketch := by
  cases h with
  | opened rows j row' premise goal hrows hrow' hreduce hrule =>
    obtain ⟨hsub, hstamp⟩ := stamp_of_removeAround_setLine hrow hrows hrow'
    obtain ⟨before, after, rfl, rfl⟩ := exists_split_of_getElem? hrow'
    rw [← hstamp]
    refine (moves_of_sublist hsub).trans ?_
    exact @moves_openSubproof { d with rows := before ++ row' :: after } before after row' rfl
      row'.label premise goal hreduce
  | supplied rows j row' goals hrows hrow' hreduce hrule =>
    obtain ⟨hsub, hstamp⟩ := stamp_of_removeAround_setLine hrow hrows hrow'
    obtain ⟨before, after, rfl, rfl⟩ := exists_split_of_getElem? hrow'
    rw [← hstamp]
    refine (moves_of_sublist hsub).trans ?_
    exact @moves_supplyGoals { d with rows := before ++ row' :: after } before after row' rfl
      row'.label goals hreduce

theorem variant_unlink (previous : Stamp) (row : Row) :
    Variant (bare row) (bare (unlink previous row)) := by
  unfold unlink
  split
  . exact .unlinked (bare row)
  . exact .same (bare row)

theorem moves_unlink {stamp : Stamp} (previous : Stamp) (rows : List Row) :
    Moves (outline rows stamp) (outline (rows.map (unlink previous)) stamp) := by
  apply moves_revise
  rw [List.forall₂_map_right_iff]
  exact List.forall₂_same.mpr fun row _ => variant_unlink previous row

theorem variant_reset (following : Option Stamp) (row : Row) :
    Variant (bare row) (bare (reset following row)) := by
  unfold reset
  split
  . have hnew : ∀ line : Line, line = .new row.line.formula row.line.stamp (.unknown .forward)
        row.line.fixed row.line.editable → bare ⟨row.label, line⟩ = line :=
      fun line h => bare_eq_self (congrArg Line.arguments h)
    rw [hnew _ rfl]
    exact .reset (bare row)
  . exact .same (bare row)

section Record

variable {before after : List Row} {row : Row} (hrows : d.rows = before ++ row :: after)
  (heditable : row.line.editable = true) {line : Line} (hline : Altered d.rows row line)
include hrows heditable hline

omit hrows in
theorem fresh_conclusion (label : Label) (conclusion : Formula) (fixed editable : Bool) :
    Fresh (before.map bare) ((row :: after).map bare) d.stamp
      (bare ⟨label, { line with
        formula := conclusion, fixed, editable, stamp := d.stamp, source := some d.stamp }⟩) :=
  .conclusion d.rows row (by simp) heditable line hline label conclusion fixed editable

theorem moves_insertConclusion (label : Label) (conclusion : Formula) (previous : Stamp)
    (following : Option Stamp) :
    Moves d.sketch
      (d.insertConclusion before.length label line conclusion previous following).sketch := by
  let new : Row := ⟨label, conclusionLine line conclusion d.stamp⟩
  have hinsert : Moves d.sketch (outline (before ++ new :: row :: after) d.stamp.next) := by
    rw [sketch, hrows]
    exact moves_insert (fresh_conclusion heditable hline label conclusion false true)
  have hshift : Moves (outline (before ++ new :: row :: after) d.stamp.next)
      (outline (before ++ new :: row.shift label 1 :: after.map (Row.shift label 1))
        d.stamp.next) := by
    apply moves_of_map_bare_eq
    simp only [List.map_append, List.map_cons, map_bare_eq (bare_shift label 1), bare_shift]
  have hmoves := (hinsert.trans hshift).trans (moves_unlink previous _)
  simp only [List.map_append, List.map_cons] at hmoves
  rw [List.append_cons _ (unlink previous new)] at hmoves
  rw [insertConclusion_eq hrows, sketch, List.append_cons _ (unlink previous new)]
  exact hmoves.trans (moves_replace (variant_reset following _))

theorem moves_recorded {label : Label} {conclusion : Formula} {previous : Stamp}
    {following : Option Stamp}
    (h : Recorded d before.length label line conclusion previous following next) :
    Moves d.sketch next.sketch := by
  have hcopied : Variant (bare row) (bare ⟨row.label, line⟩) :=
    .copied d.rows row heditable line hline row.label
  cases h with
  | rewritten hsource hgenerated =>
    -- The conclusion is a new line, and the one that it replaces is dropped.
    rw [sketch, hrows]
    refine (moves_insert (fresh_conclusion heditable hline row.label conclusion line.fixed
      line.editable)).trans ?_
    simp only [setLine, hrows, modify_split]
    apply moves_of_sublist
    exact List.Sublist.map bare (((List.sublist_cons_self ..).cons_cons _).append_left _)
  | explained hformula =>
    rw [sketch_setLine hrows, sketch, hrows]
    refine (moves_replace hcopied).trans (moves_replace ?_)
    cases hsource : line.source with
    | none => exact .linked (bare ⟨row.label, line⟩)
    | some s =>
      rw [Option.getD_some, ← hsource]
      exact .same _
  | inserted hformula => exact moves_insertConclusion hrows heditable hline ..

end Record

theorem moves_of_apply_eq_ok {edit : Edit} (h : d.apply edit = .ok next) :
    Moves d.sketch next.sketch := by
  cases applied_of_apply_eq_ok h with
  | toggled row hrow haction => exact moves_setLine hrow (.shown (bare row) _)
  | deleted row hrow haction hfixed =>
    apply moves_of_sublist
    refine (map_bare_prune_sublist _).trans ?_
    rw [map_bare_removeRow]
    exact List.eraseIdx_sublist ..
  | changed row hrow change haction line hline between hbetween =>
    have heditable := editable_of_changed hline
    have haltered := altered_of_changed hline
    have hstored := moves_setLine hrow (.copied d.rows row heditable line haltered row.label)
    suffices hnext : Moves d.sketch between.sketch from
      hnext.trans (moves_of_sublist (map_bare_prune_sublist _))
    cases replaced_of_replaceLine_eq_ok hbetween with
    | stored hfits => exact hstored
    | expanded next hcomplete hdirection hfits hexpand =>
      exact hstored.trans (moves_expanded hrow (expanded_of_expand_eq_ok hexpand))
    | recorded premises conclusion hcomplete hdirection hcited hconclude =>
      obtain ⟨before, after, hrows, hlen⟩ := exists_split_of_getElem? hrow
      rw [← hlen]
      exact moves_recorded hrows heditable haltered (recorded_record ..)

end ProofDesk.Derivation
