import ProofDesk.Proofs.Identity

/-!
This module contains what an edit leaves alone. Lines that go keep the others in their order, lines
that come have fresh stamps, and of the lines that stay only the edited one changes in more than its
citations and its source.
-/

namespace ProofDesk.Derivation

def trace (own : Stamp) (line : Line) : Stamp × Option Line :=
  (line.stamp,
    if line.stamp = own then none else some { line with arguments := [], source := none })

structure Frame (own : Stamp) (o o' : Outline) : Prop where
  stamp_le : o.stamp.number ≤ o'.stamp.number
  traces : ((o'.lines.map (trace own)).filter (·.1.number < o.stamp.number)).Sublist
    (o.lines.map (trace own))

theorem Frame.trans {own : Stamp} {o o' o'' : Outline} (h : Frame own o o')
    (h' : Frame own o' o'') : Frame own o o'' := by
  refine ⟨h.stamp_le.trans h'.stamp_le, ?_⟩
  have hlt : ∀ t : Stamp × Option Line,
      (decide (t.1.number < o.stamp.number) && decide (t.1.number < o'.stamp.number))
        = decide (t.1.number < o.stamp.number) := by
    have := h.stamp_le
    grind
  have hfilter := h'.traces.filter (·.1.number < o.stamp.number)
  rw [List.filter_filter, List.filter_congr fun t _ => hlt t] at hfilter
  exact hfilter.trans h.traces

section Rows

variable {own stamp : Stamp} {rows rows' before after : List Row} {row row' : Row}

theorem trace_of_own (h : row.line.stamp = own) : trace own row.line = (own, none) := by
  simp [trace, h]

theorem frame_of_traces (h : (rows'.map fun row => trace own row.line).Sublist
    (rows.map fun row => trace own row.line)) :
    Frame own (outline rows stamp) (outline rows' stamp) := by
  refine ⟨Nat.le_refl _, ?_⟩
  simp only [outline, List.map_map]
  exact List.filter_sublist.trans h

theorem frame_of_sublist (h : (rows'.map bare).Sublist (rows.map bare)) :
    Frame own (outline rows stamp) (outline rows' stamp) := by
  apply frame_of_traces
  have htraces := h.map (trace own)
  rwa [List.map_map, List.map_map] at htraces

theorem frame_replace (h : row.line.stamp = own) (h' : row'.line.stamp = own) :
    Frame own (outline (before ++ row :: after) stamp)
      (outline (before ++ row' :: after) stamp) := by
  apply frame_of_traces
  rw [List.map_append, List.map_append, List.map_cons, List.map_cons, trace_of_own h,
    trace_of_own h']

theorem frame_insert {new : List Row} {stamp' : Stamp} (hle : stamp.number ≤ stamp'.number)
    (hnew : ∀ row ∈ new, stamp.number ≤ row.line.stamp.number) :
    Frame own (outline (before ++ after) stamp) (outline (before ++ (new ++ after)) stamp') := by
  -- Rows with stamps that have not been handed out yet leave no trace.
  refine ⟨hle, ?_⟩
  have hnone : (((new.map bare).map (trace own)).filter (·.1.number < stamp.number)) = [] := by
    rw [List.filter_eq_nil_iff, List.forall_mem_map, List.forall_mem_map]
    intro row hrow
    have := hnew row hrow
    simpa [trace] using this
  simp only [outline, List.map_append, List.filter_append, hnone, List.nil_append]
  exact List.filter_sublist.append List.filter_sublist

theorem trace_unlink (own previous : Stamp) (row : Row) :
    trace own (unlink previous row).line = trace own row.line := by
  unfold unlink
  split <;> rfl

theorem frame_unlink (previous : Stamp) :
    Frame own (outline rows stamp) (outline (rows.map (unlink previous)) stamp) := by
  have htraces : (rows.map (unlink previous)).map (fun row => trace own row.line)
      = rows.map fun row => trace own row.line := by
    rw [List.map_map]
    exact List.map_congr_left fun row _ => trace_unlink own previous row
  apply frame_of_traces
  rw [htraces]

end Rows

theorem stamp_unlink (previous : Stamp) (row : Row) :
    (unlink previous row).line.stamp = row.line.stamp := by
  unfold unlink
  split <;> rfl

theorem stamp_reset (following : Option Stamp) (row : Row) :
    (reset following row).line.stamp = row.line.stamp := by
  unfold reset
  split <;> rfl

variable {d next : Derivation} {own : Stamp}

section Split

variable {before after : List Row} {row : Row} (hrows : d.rows = before ++ row :: after)
  (hown : row.line.stamp = own)
include hrows hown

theorem frame_setLine {line : Line} (hline : line.stamp = own) :
    Frame own d.sketch (d.setLine before.length line).sketch := by
  rw [sketch_setLine hrows, sketch, hrows]
  exact frame_replace hown hline

theorem frame_supplyGoals (base : Label) (source : Stamp) (goals : List Formula) :
    Frame own d.sketch (d.supplyGoals before.length base source goals).sketch := by
  obtain ⟨new, arguments, -, hnew, -, heq⟩ := exists_supplyGoals_eq hrows base source goals
  have hfresh : ∀ r ∈ new, d.stamp.number ≤ r.line.stamp.number := by
    intro r hr
    obtain ⟨t, ht⟩ := List.getElem?_of_mem hr
    obtain ⟨goal, -, rfl⟩ := hnew t r ht
    exact Nat.le_add_right _ _
  let target : Row := ⟨(makeRoom base new.length row).label, { row.line with arguments }⟩
  have htarget : Frame own d.sketch (outline (before ++ target :: after) d.stamp) := by
    rw [sketch, hrows]
    exact frame_replace hown hown
  have hroom : Frame own (outline (before ++ target :: after) d.stamp)
      (outline (before ++ target :: after.map (makeRoom base new.length)) d.stamp) :=
    frame_of_sublist (by simp [map_bare_eq (bare_makeRoom base new.length)])
  rw [heq, sketch, List.append_assoc]
  exact (htarget.trans hroom).trans (frame_insert (Nat.le_add_right _ _) hfresh)

theorem frame_openSubproof (header : Label) (source : Stamp) (premise goal : Formula) :
    Frame own d.sketch (d.openSubproof before.length header source premise goal).sketch := by
  obtain ⟨before', row', after', hbefore, hbare, hafter, heq⟩ :=
    exists_openSubproof_eq hrows header source premise goal
  have hdrop : Frame own d.sketch (outline (before' ++ row' :: after') d.stamp) := by
    apply frame_of_sublist
    rw [hrows, List.map_append, List.map_append, List.map_cons, List.map_cons, hbare, hafter]
    exact hbefore.append (List.Sublist.refl _)
  have hrow' : row'.line.stamp = own := by
    rw [← hown, ← stamp_bare, hbare, stamp_bare]
  let first : Row := ⟨header.child 1, assumptionLine premise d.stamp source⟩
  let second : Row := ⟨header.child 2, goalLine goal d.stamp.next source⟩
  have hfresh : ∀ r ∈ [first, second], d.stamp.number ≤ r.line.stamp.number := by
    rw [List.forall_mem_cons, List.forall_mem_singleton]
    exact ⟨Nat.le_refl _, Nat.le_succ _⟩
  let target : Row := ⟨row'.label, { row'.line with
    arguments := [some (header.child 1), some (header.child 2)] }⟩
  have htarget : Frame own (outline (before' ++ row' :: after') d.stamp)
      (outline (before' ++ target :: after') d.stamp) :=
    frame_replace hrow' hrow'
  rw [heq]
  exact (hdrop.trans htarget).trans (frame_insert (Nat.le_add_right _ 2) hfresh)

theorem frame_insertConclusion (label : Label) (line : Line) (conclusion : Formula)
    (previous : Stamp) (following : Option Stamp) :
    Frame own d.sketch
      (d.insertConclusion before.length label line conclusion previous following).sketch := by
  let new : Row := ⟨label, conclusionLine line conclusion d.stamp⟩
  have hinsert : Frame own d.sketch (outline (before ++ new :: row :: after) d.stamp.next) := by
    rw [sketch, hrows]
    refine frame_insert (Nat.le_succ _) (List.forall_mem_singleton.mpr ?_)
    exact Nat.le_refl _
  have hshift : Frame own (outline (before ++ new :: row :: after) d.stamp.next)
      (outline (before ++ new :: row.shift label 1 :: after.map (Row.shift label 1))
        d.stamp.next) := by
    apply frame_of_sublist
    simp only [List.map_append, List.map_cons, map_bare_eq (bare_shift label 1), bare_shift]
    exact List.Sublist.refl _
  have hframe := (hinsert.trans hshift).trans (frame_unlink previous)
  simp only [List.map_append, List.map_cons] at hframe
  rw [List.append_cons _ (unlink previous new)] at hframe
  rw [insertConclusion_eq hrows, sketch, List.append_cons _ (unlink previous new)]
  refine hframe.trans (frame_replace ?_ ?_)
  . rw [stamp_unlink]
    exact hown
  . rw [stamp_reset, stamp_unlink]
    exact hown

theorem frame_recorded {label : Label} {line : Line} (hline : line.stamp = own)
    {conclusion : Formula} {previous : Stamp} {following : Option Stamp}
    (h : Recorded d before.length label line conclusion previous following next) :
    Frame own d.sketch next.sketch := by
  cases h with
  | rewritten hsource hgenerated =>
    -- The line gets a fresh stamp, so the line with the old one is gone.
    have hdrop : Frame own d.sketch (outline (before ++ after) d.stamp) := by
      rw [sketch, hrows]
      exact frame_of_sublist (((List.sublist_cons_self ..).append_left _).map bare)
    refine hdrop.trans ?_
    simp only [setLine, hrows, modify_split]
    refine frame_insert (Nat.le_succ _) (List.forall_mem_singleton.mpr ?_)
    exact Nat.le_refl _
  | explained hformula => exact frame_setLine hrows hown hline
  | inserted hformula => exact frame_insertConclusion hrows hown ..

end Split

theorem frame_expanded {i : Nat} {row : Row} {line : Line} {previous : Stamp}
    (hrow : d.rows[i]? = some row) (hline : line.stamp = own)
    (h : Expanded d i line previous next) : Frame own (d.setLine i line).sketch next.sketch := by
  cases h with
  | opened rows j row' premise goal hrows hrow' hreduce hrule =>
    obtain ⟨hsub, hstamp⟩ := stamp_of_removeAround_setLine hrow hrows hrow'
    obtain ⟨before, after, rfl, rfl⟩ := exists_split_of_getElem? hrow'
    refine (frame_of_sublist hsub).trans ?_
    exact @frame_openSubproof { d with rows := before ++ row' :: after } own before after row' rfl
      (hstamp.trans hline) row'.label line.stamp premise goal
  | supplied rows j row' goals hrows hrow' hreduce hrule =>
    obtain ⟨hsub, hstamp⟩ := stamp_of_removeAround_setLine hrow hrows hrow'
    obtain ⟨before, after, rfl, rfl⟩ := exists_split_of_getElem? hrow'
    refine (frame_of_sublist hsub).trans ?_
    exact @frame_supplyGoals { d with rows := before ++ row' :: after } own before after row' rfl
      (hstamp.trans hline) row'.label line.stamp goals

theorem exists_frame_of_apply_eq_ok {edit : Edit} (h : d.apply edit = .ok next) :
    ∃ row, d.rows[edit.line]? = some row ∧ Frame row.line.stamp d.sketch next.sketch := by
  cases applied_of_apply_eq_ok h with
  | toggled row hrow haction =>
    obtain ⟨before, after, hrows, hlen⟩ := exists_split_of_getElem? hrow
    refine ⟨row, hrow, ?_⟩
    rw [← hlen]
    exact frame_setLine hrows rfl rfl
  | deleted row hrow haction hfixed =>
    refine ⟨row, hrow, frame_of_sublist ?_⟩
    refine (map_bare_prune_sublist _).trans ?_
    rw [map_bare_removeRow]
    exact List.eraseIdx_sublist ..
  | changed row hrow change haction line hline between hbetween =>
    refine ⟨row, hrow, ?_⟩
    have hstamp := (retains_of_altered (altered_of_changed hline)).stamp
    obtain ⟨before, after, hrows, hlen⟩ := exists_split_of_getElem? hrow
    suffices hnext : Frame row.line.stamp d.sketch between.sketch from
      hnext.trans (frame_of_sublist (map_bare_prune_sublist _))
    rw [← hlen] at hbetween
    have hstored := frame_setLine hrows rfl hstamp
    cases replaced_of_replaceLine_eq_ok hbetween with
    | stored hfits => exact hstored
    | expanded next hcomplete hdirection hfits hexpand =>
      rw [← hlen] at hrow
      exact hstored.trans (frame_expanded hrow hstamp (expanded_of_expand_eq_ok hexpand))
    | recorded premises conclusion hcomplete hdirection hcited hconclude =>
      exact frame_recorded hrows rfl hstamp (recorded_record ..)

def stamps (d : Derivation) : List Stamp :=
  d.rows.map fun row => row.line.stamp

theorem numbered_iff :
    d.ledger.Numbered ↔ d.stamps.Nodup ∧ ∀ s ∈ d.stamps, s.number < d.stamp.number := by
  have hstamps : d.ledger.entries.map Entry.stamp = d.stamps := by
    simp [ledger, stamps, Line.entry]
  constructor
  . intro h
    rw [← hstamps, List.forall_mem_map]
    exact ⟨h.distinct, h.stamp_lt⟩
  . intro h
    rw [← hstamps, List.forall_mem_map] at h
    exact ⟨h.1, h.2⟩

theorem numbered_of_apply_eq_ok {edit : Edit} (h : d.ledger.Numbered)
    (happly : d.apply edit = .ok next) : next.ledger.Numbered := by
  have hmoves := (moves_of_apply_eq_ok happly).ledger
  rw [ledger_sketch, ledger_sketch] at hmoves
  exact h.of_moves hmoves

namespace Frame

variable (h : Frame own d.sketch next.sketch)
include h

theorem exists_trace_eq {new : Row} (hnew : new ∈ next.rows)
    (hlt : new.line.stamp.number < d.stamp.number) :
    ∃ old ∈ d.rows, trace own new.line = trace own old.line := by
  have hmem : trace own new.line ∈ (next.sketch.lines.map (trace own)).filter
      (·.1.number < d.stamp.number) := by
    refine List.mem_filter.mpr ⟨?_, decide_eq_true hlt⟩
    simp only [sketch, outline, List.map_map]
    exact List.mem_map_of_mem hnew
  have hold := h.traces.subset hmem
  simp only [sketch, outline, List.map_map, List.mem_map] at hold
  obtain ⟨old, hold, heq⟩ := hold
  exact ⟨old, hold, heq.symm⟩

theorem stamps_sublist :
    (next.stamps.filter (·.number < d.stamp.number)).Sublist d.stamps := by
  have hstamps := h.traces.map Prod.fst
  simp only [sketch, outline, List.map_map, List.filter_map] at hstamps
  rw [stamps, List.filter_map]
  exact hstamps

end Frame

theorem eq_of_trace_eq {a b : Line} (ha : a.stamp ≠ own) (h : trace own a = trace own b) :
    a = { b with arguments := a.arguments, source := a.source } := by
  obtain ⟨hstamp, hline⟩ := Prod.mk.inj h
  rw [if_neg ha, if_neg (hstamp ▸ ha)] at hline
  have hfields := Option.some.inj hline
  exact congrArg (fun l : Line => { l with arguments := a.arguments, source := a.source }) hfields

/--
An edit is local. A line that was there before, and is not the edited one, keeps everything but its
citations and its source, the lines keep their order, and a stamp that was not there before was
handed out by the edit.
-/
theorem rows_kept_of_apply_eq_ok (d next : Derivation) (edit : Edit) (hdistinct : d.stamps.Nodup)
    (hlt : ∀ s ∈ d.stamps, s.number < d.stamp.number) (happly : d.apply edit = .ok next) :
    ∃ row, d.rows[edit.line]? = some row
      ∧ (∀ old ∈ d.rows, ∀ new ∈ next.rows, new.line.stamp = old.line.stamp →
        new.line.stamp ≠ row.line.stamp →
          new.line
            =
          { old.line with arguments := new.line.arguments, source := new.line.source })
      ∧ (next.stamps.filter (· ∈ d.stamps)).Sublist d.stamps
      ∧ ∀ s ∈ next.stamps, s ∉ d.stamps →
        d.stamp.number ≤ s.number ∧ s.number < next.stamp.number := by
  obtain ⟨row, hrow, hframe⟩ := exists_frame_of_apply_eq_ok happly
  refine ⟨row, hrow, ?_, ?_, ?_⟩
  . intro old hold new hnew hstamp hne
    have hnumber : new.line.stamp.number < d.stamp.number := by
      rw [hstamp]
      exact hlt _ (List.mem_map_of_mem hold)
    obtain ⟨source, hsource, htrace⟩ := hframe.exists_trace_eq hnew hnumber
    have hsame : source.line.stamp = old.line.stamp := (congrArg Prod.fst htrace).symm.trans hstamp
    obtain rfl : source = old := List.inj_on_of_nodup_map hdistinct hsource hold hsame
    exact eq_of_trace_eq hne htrace
  . refine (List.monotone_filter_right _ ?_).trans hframe.stamps_sublist
    intro s hs
    exact decide_eq_true (hlt s (of_decide_eq_true hs))
  . intro s hs hnot
    obtain ⟨-, hlt'⟩ := numbered_iff.mp
      (numbered_of_apply_eq_ok (numbered_iff.mpr ⟨hdistinct, hlt⟩) happly)
    refine ⟨?_, hlt' s hs⟩
    by_contra hnumber
    refine hnot (hframe.stamps_sublist.subset (List.mem_filter.mpr ⟨hs, ?_⟩))
    exact decide_eq_true (Nat.lt_of_not_le hnumber)

def implicationStart : Derivation :=
  begin (.var "P") (.imp (.var "Q") (.var "P")) .backward

theorem implicationStart_rows_kept :
    ∃ next, implicationStart.apply ⟨1, .change (.setRule (some .directProof))⟩ = .ok next
      ∧ implicationStart.stamps = [⟨0⟩, ⟨1⟩] ∧ next.stamps = [⟨0⟩, ⟨2⟩, ⟨3⟩, ⟨1⟩]
      ∧ (∀ new ∈ next.rows, new.line.stamp = ⟨0⟩ →
        new.line.formula = .var "P" ∧ new.line.step = .assumption)
      ∧ (next.stamps.filter (· ∈ implicationStart.stamps)).Sublist implicationStart.stamps
      ∧ ∀ s ∈ next.stamps, s ∉ implicationStart.stamps →
        2 ≤ s.number ∧ s.number < next.stamp.number := by
  have hrun : (implicationStart.apply
      ⟨1, .change (.setRule (some .directProof))⟩).toOption.map stamps
        = some [⟨0⟩, ⟨2⟩, ⟨3⟩, ⟨1⟩] := by
    decide +kernel
  obtain ⟨next, happly, hstamps⟩ := exists_of_map_toOption_eq_some hrun
  obtain ⟨row, hrow, hkept, hsub, hnew⟩ :=
    rows_kept_of_apply_eq_ok implicationStart next _ (by decide) (by decide) happly
  refine ⟨next, happly, rfl, hstamps, ?_, hsub, hnew⟩
  intro new hmem hstamp
  have hedited : row.line.stamp = ⟨1⟩ := (congrArg (·.line.stamp) (Option.some.inj hrow)).symm
  have hne : new.line.stamp ≠ row.line.stamp := by
    rw [hstamp, hedited]
    decide
  have hline := hkept _ List.mem_cons_self new hmem hstamp hne
  exact ⟨congrArg Line.formula hline, congrArg Line.step hline⟩

end ProofDesk.Derivation
