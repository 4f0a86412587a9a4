import ProofDesk.Derivation.View
import ProofDesk.Proofs.Run
import ProofDesk.Proofs.Upheld

/-!
This module contains when a derivation can be checked and displayed at all: after every orderly run
in which no line is rewritten that another one is checked against.
-/

namespace ProofDesk.Derivation

section Total

variable {d : Derivation} {i : Nat}

theorem HoldGoals.exists_holdsGoals_eq_ok (hordered : Ordered d.rows) {goals : List Formula}
    {args : List (Option Label)} (h : HoldGoals d.rows goals args) :
    ∃ holds, d.holdsGoals i goals args = .ok holds := by
  induction goals generalizing args with
  | nil => exact ⟨true, by cases args <;> rfl⟩
  | cons goal goals ih =>
    cases args with
    | nil => exact ⟨true, rfl⟩
    | cons arg args =>
      cases arg with
      | none => exact ⟨false, rfl⟩
      | some label =>
        obtain ⟨⟨row, hrow, rfl, hgoal⟩, h⟩ := h
        simpa [holdsGoals, lineAt_eq_ok hordered hrow, hgoal, bind, Except.bind] using ih h

theorem Tidy.exists_checkForward_eq_ok (h : Tidy d) {row : Row} (hrow : row ∈ d.rows)
    (hcomplete : row.line.step.isComplete = true) (hforward : row.line.step.direction = .forward) :
    ∃ correct, d.checkForward row = .ok correct := by
  obtain ⟨formulas, hcited⟩ := exists_cited_eq_ok h.laid.ordered
    fun label hlabel => (h.laid.anchored row hrow label hlabel).1
  unfold checkForward
  split
  . cases formulas with
    | none => simp [hcited, bind, Except.bind]
    | some premises =>
      simp only [hcited, bind, Except.bind, concludes]
      split
      . next hfits =>
        obtain ⟨q, hq⟩ := Step.exists_conclude_eq_ok hcomplete hforward hfits
        exact ⟨_, by rw [hq]; rfl⟩
      . exact ⟨false, rfl⟩
  . exact ⟨false, rfl⟩

theorem Tidy.exists_checkBackward_eq_ok (h : Tidy d) (hupheld : Upheld d.rows) {row : Row}
    (hrow : row ∈ d.rows) (hcomplete : row.line.step.isComplete = true)
    (hbackward : row.line.step.direction = .backward) :
    ∃ correct, d.checkBackward i row.line = .ok correct := by
  unfold checkBackward
  split
  . next hfits =>
    obtain ⟨goals, hgoals⟩ := Step.exists_reduce_eq_ok hcomplete hbackward hfits (fun _ => rfl)
    have hlen : goals.length = row.line.arguments.length := by
      rw [Step.length_of_reduce_eq_ok hgoals, (h.coherent.proper row hrow).arity]
    have hholds := hupheld row hrow ⟨hbackward, hcomplete, hfits⟩ goals hgoals
    simpa [hgoals, liftStep, hlen, bind, Except.bind] using
      hholds.exists_holdsGoals_eq_ok h.laid.ordered
  . exact ⟨false, rfl⟩

theorem Tidy.exists_isCorrect_eq_ok (h : Tidy d) (hupheld : Upheld d.rows) (hi : i < d.size) :
    ∃ correct, d.isCorrect i = .ok correct := by
  have hrow : d.rows[i]? = some (d.rows[i]) := List.getElem?_eq_getElem hi
  unfold isCorrect
  rw [row_eq_ok.mpr hrow]
  simp only [bind, Except.bind]
  split
  . next hcomplete =>
    split
    . next hforward => exact h.exists_checkForward_eq_ok (List.getElem_mem hi) hcomplete hforward
    . next hbackward =>
      exact h.exists_checkBackward_eq_ok hupheld (List.getElem_mem hi) hcomplete hbackward
  . exact ⟨false, rfl⟩

def Checkable (d : Derivation) : Prop :=
  ∀ i < d.size, ∃ correct, d.isCorrect i = .ok correct

theorem Checkable.exists_isSolved_eq_ok (h : Checkable d) : ∃ solved, d.isSolved = .ok solved := by
  have hgo : ∀ indices : List Nat, (∀ i ∈ indices, i < d.size) →
      ∃ solved, isSolved.go d indices = .ok solved := by
    intro indices hindices
    induction indices with
    | nil => exact ⟨true, rfl⟩
    | cons i indices ih =>
      simp only [List.mem_cons, forall_eq_or_imp] at hindices
      obtain ⟨correct, hcorrect⟩ := h i hindices.1
      cases correct with
      | true => simpa [isSolved.go, hcorrect, bind, Except.bind] using ih hindices.2
      | false => exact ⟨false, by simp [isSolved.go, hcorrect, bind, Except.bind]⟩
  exact hgo (List.range d.size) (by simp)

theorem Checkable.exists_view_eq_ok (h : Checkable d) : ∃ lines, d.view = .ok lines := by
  have hmapM : ∀ xs : List (Row × Nat), (∀ x ∈ xs, x.2 < d.size) →
      ∃ lines, (xs.mapM fun x => d.lineView x.2 x.1) = .ok lines := by
    intro xs hxs
    induction xs with
    | nil => exact ⟨[], rfl⟩
    | cons x xs ih =>
      simp only [List.mem_cons, forall_eq_or_imp] at hxs
      obtain ⟨correct, hcorrect⟩ := h x.2 hxs.1
      obtain ⟨lines, hlines⟩ := ih hxs.2
      rw [List.mapM_cons, hlines]
      simp [lineView, hcorrect, bind, Except.bind, pure, Except.pure]
  apply hmapM
  intro x hx
  exact List.snd_lt_of_mem_zipIdx hx

end Total

section Clobber

variable {d next : Derivation} {i : Nat} {row : Row}

theorem HoldGoals.exists_argumentMismatch (i : Nat) (next : Derivation) {goals : List Formula}
    {args : List (Option Label)} (h : HoldGoals d.rows goals args)
    (hlen : goals.length = args.length)
    (hordered : Ordered d.rows) (hrow : row ∈ d.rows) (hrelied : row.label ∈ leading args)
    (hfound : ∀ label ∈ leading args, ∃ line, next.lineAt label = .ok line)
    {line : Line} (hline : next.lineAt row.label = .ok line)
    (hformula : line.formula ≠ row.line.formula) :
    ∃ label goal found,
      next.holdsGoals i goals args = .error (.argumentMismatch i label goal found) := by
  induction goals generalizing args with
  | nil =>
    rw [List.length_nil, eq_comm, List.length_eq_zero_iff] at hlen
    simp [hlen, leading] at hrelied
  | cons goal goals ih =>
    cases args with
    | nil => simp at hlen
    | cons arg args =>
      cases arg with
      | none => simp [leading] at hrelied
      | some label =>
        obtain ⟨⟨c, hc, rfl, rfl⟩, hrest⟩ := h
        obtain ⟨line', hline'⟩ := hfound c.label (by simp [leading])
        by_cases heq : line'.formula = c.line.formula
        . -- This citation still holds its goal, so that it is not the one in question.
          have hne : row.label ≠ c.label := by
            intro hlabel
            rw [← hlabel, hline, Except.ok.injEq] at hline'
            rw [hordered.eq_of_label_eq hrow hc hlabel, hline'] at hformula
            exact hformula heq
          simp only [leading, List.mem_cons, hne, false_or] at hrelied
          simp only [leading, List.mem_cons, forall_eq_or_imp] at hfound
          simpa [holdsGoals, hline', heq, bind, Except.bind] using
            ih hrest (by simpa using hlen) hrelied hfound.2
        . exact ⟨c.label, c.line.formula, line'.formula,
            by simp [holdsGoals, hline', heq, bind, Except.bind]⟩

theorem exists_of_rewrites {line : Line} (h : d.rewrites row line = true) :
    line.step.isComplete = true ∧ line.step.direction = .forward
      ∧ ∃ conclusion, conclusion ≠ line.formula
        ∧ d.replaceLine i row line = .ok { d.setLine i { line with
            formula := conclusion
            stamp := d.stamp
            source := some d.stamp } with
          stamp := d.stamp.next } := by
  simp only [rewrites, Bool.and_eq_true, beq_iff_eq, List.isEmpty_iff] at h
  obtain ⟨⟨⟨⟨hcomplete, hforward⟩, hsource⟩, hgenerated⟩, h⟩ := h
  have hdirection : line.step.direction = .forward := by
    cases hdirection : line.step.direction with
    | forward => rfl
    | backward => simp [Line.isForward, Direction.isForward, hdirection] at hforward
  refine ⟨hcomplete, hdirection, ?_⟩
  split at h
  . next premises hcited =>
    cases hconclude : line.step.conclude premises with
    | error e => simp [hconclude, Except.toOption] at h
    | ok conclusion =>
      refine ⟨conclusion, by simpa [hconclude, Except.toOption] using h, ?_⟩
      obtain ⟨_, _, _, hfits, _⟩ := Step.conclude_eq_ok.mp hconclude
      replace hfits : line.step.fits premises = true := by
        rwa [Step.fits, hdirection]
      simp [replaceLine, hcomplete, hdirection, updateForward, hcited, hfits, hconclude, liftStep,
        record, hsource, hgenerated, bind, Except.bind, pure, Except.pure]
  . simp at h

theorem Laid.prune_eq_self {rows : List Row} (h : Laid rows) (hclosed : rows.IsChain Closes) :
    prune rows = rows := by
  obtain ⟨first, hfirst, -⟩ := h.first
  obtain ⟨rest, rfl⟩ := List.head?_eq_some_iff.mp hfirst
  apply Derivation.prune_eq_self _ hclosed.tail
  intro row hrow
  exact List.length_pos_iff.mpr (h.valid row (List.mem_cons_of_mem _ hrow)).1

theorem Tidy.prune_setLine {line : Line} (line' : Line) (h : Tidy d)
    (hrow : d.rows[i]? = some row) (hcopied : Copied d.rows row line)
    (heditable : row.line.editable = true)
    (hcomplete : line.step.isComplete = true) (hforward : line.step.direction = .forward)
    (hstep : line'.step = line.step) (harguments : line'.arguments = line.arguments)
    (hfixed : line'.fixed = line.fixed) :
    Laid (d.setLine i line').rows ∧ prune (d.setLine i line').rows = (d.setLine i line').rows := by
  have hrevised : Revised False d.rows (d.setLine i line').rows :=
    revised_setLine hrow h hcopied heditable hstep harguments hfixed
      (fun hbackward => by simp [hstep, hforward] at hbackward) False.elim
  have hlaid := h.laid.of_revised hrevised
  refine ⟨hlaid, hlaid.prune_eq_self ?_⟩
  -- The old line is no direct proof, so that no subproof loses its header.
  have hrule := hcopied.rule_ne_directProof hforward hcomplete
  have hclosed := h.closed
  obtain ⟨before, after, hrows, rfl⟩ := exists_split_of_getElem? hrow
  rw [setLine, hrows, modify_split]
  rw [hrows] at hclosed
  apply isChain_closes_of_forall₂ hclosed
  exact List.rel_append (List.forall₂_same.mpr fun _ _ => ⟨rfl, id⟩)
    (.cons ⟨rfl, fun hdirect => absurd hdirect hrule⟩
      (List.forall₂_same.mpr fun _ _ => ⟨rfl, id⟩))

theorem Tidy.exists_argumentMismatch {line : Line} {r : Row} (h : Tidy d)
    (hupheld : Upheld d.rows) (hrow : d.rows[i]? = some row) (hr : r ∈ d.rows)
    (hchecks : Checks r.line) (hrelied : row.label ∈ leading r.line.arguments)
    (hformula : line.formula ≠ row.line.formula) (hlaid : Laid next.rows)
    (hnext : next.rows = (d.setLine i line).rows) :
    ∃ j < next.size, ∃ label goal found,
      next.isCorrect j = .error (.argumentMismatch j label goal found) := by
  obtain ⟨goals, hgoals⟩ :=
    Step.exists_reduce_eq_ok hchecks.2.1 hchecks.1 hchecks.2.2 (fun _ => rfl)
  have hlen : goals.length = r.line.arguments.length := by
    rw [Step.length_of_reduce_eq_ok hgoals, (h.coherent.proper r hr).arity]
  have hne : r ≠ row := by
    rintro rfl
    simpa [Label.before_irrefl] using h.laid.before_of_cited hr (mem_of_mem_leading hrelied)
  have hmem : r ∈ next.rows ∧ ⟨row.label, line⟩ ∈ next.rows := by
    obtain ⟨before, after, hrows, rfl⟩ := exists_split_of_getElem? hrow
    rw [hrows] at hr
    rw [hnext, setLine, hrows, modify_split]
    simp only [List.mem_append, List.mem_cons] at hr ⊢
    grind
  obtain ⟨hrmem, hrowmem⟩ := hmem
  have hline : next.lineAt row.label = .ok line := lineAt_eq_ok hlaid.ordered hrowmem
  obtain ⟨j, hj⟩ := List.getElem?_of_mem hrmem
  refine ⟨j, (List.getElem?_eq_some_iff.mp hj).1, ?_⟩
  obtain ⟨label, goal, found, herror⟩ := (hupheld r hr hchecks goals hgoals).exists_argumentMismatch
    j next hlen h.laid.ordered (List.mem_of_getElem? hrow) hrelied
    (by
      intro label hlabel
      obtain ⟨⟨c, hc, rfl⟩, -⟩ := hlaid.anchored r hrmem label (mem_of_mem_leading hlabel)
      exact ⟨_, lineAt_eq_ok hlaid.ordered hc⟩)
    hline hformula
  refine ⟨label, goal, found, ?_⟩
  simp [isCorrect, row_eq_ok.mpr hj, hchecks.1, hchecks.2.1, hchecks.2.2, checkBackward, hgoals,
    liftStep, hlen, herror, bind, Except.bind]

theorem Tidy.exists_isCorrect_eq_error {edit : Edit} (h : Tidy d) (hupheld : Upheld d.rows)
    (hclobbers : d.clobbers edit = true) (happly : d.apply edit = .ok next) :
    ∃ i < next.size, ∃ label goal found,
      next.isCorrect i = .error (.argumentMismatch i label goal found) := by
  cases applied_of_apply_eq_ok happly with
  | toggled row hrow haction => simp [clobbers, copy?, hrow, haction] at hclobbers
  | deleted row hrow haction hfixed => simp [clobbers, copy?, hrow, haction] at hclobbers
  | changed row hrow change haction line hline between hbetween =>
    have hmem := List.mem_of_getElem? hrow
    have hcopied := copied_of_changed (h.coherent.proper row hmem) hline
    rw [clobbers, copy?_eq_some hrow haction hline, Option.any_some, Bool.and_eq_true] at hclobbers
    obtain ⟨hcomplete, hforward, conclusion, hconclusion, hreplace⟩ :=
      exists_of_rewrites (i := edit.line) hclobbers.1
    obtain rfl := Except.ok.inj (hbetween.symm.trans hreplace)
    obtain ⟨r, hr, hrelied⟩ := List.any_eq_true.mp hclobbers.2
    simp only [Bool.and_eq_true, decide_eq_true_eq, List.contains_iff_mem] at hrelied
    let line' := { line with
      formula := conclusion
      stamp := d.stamp
      source := some d.stamp }
    obtain ⟨hlaid, hprune⟩ := h.prune_setLine line' hrow hcopied (editable_of_changed hline)
      hcomplete hforward rfl rfl rfl
    refine h.exists_argumentMismatch hupheld hrow hr hrelied.1 hrelied.2 ?_ ?_ hprune
    . rwa [← hcopied.formula]
    . exact hprune.symm ▸ hlaid

end Clobber

section Run

variable {d next : Derivation} {edit : Edit}

theorem upheld_begin (start goal : Formula) (direction : Direction) :
    Upheld (begin start goal direction).rows := by
  intro row hrow hchecks goals hreduce
  simp only [begin, List.mem_cons, List.not_mem_nil, or_false] at hrow
  rcases hrow with rfl | rfl
  . cases goals <;> trivial
  . have hcomplete : (Step.unknown direction).isComplete = true := hchecks.2.1
    simp [Step.isComplete, Step.unknown, Step.ofRule, Step.rule_setRule] at hcomplete

theorem Upheld.of_apply_eq_ok (h : Upheld d.rows) (htidy : Tidy d)
    (hharmless : d.harmless edit = true) (happly : d.apply edit = .ok next) :
    Upheld next.rows := by
  rw [harmless, Bool.and_eq_true, Bool.not_eq_true'] at hharmless
  exact h.of_revised htidy.laid hharmless.2 (htidy.revised_of_apply_eq_ok hharmless.1 happly).1

theorem Tidy.checkable_iff_clobbers (h : Tidy d) (hupheld : Upheld d.rows)
    (horderly : d.orderly edit = true) (happly : d.apply edit = .ok next) :
    Checkable next ↔ d.clobbers edit = false := by
  constructor
  . intro hcheckable
    by_contra hclobbers
    obtain ⟨i, hi, label, goal, found, herror⟩ := h.exists_isCorrect_eq_error hupheld
      (by simpa using hclobbers) happly
    obtain ⟨correct, hcorrect⟩ := hcheckable i hi
    simp [hcorrect] at herror
  . intro hclobbers i hi
    have htidy := h.of_apply_eq_ok horderly happly
    apply htidy.exists_isCorrect_eq_ok _ hi
    apply hupheld.of_apply_eq_ok h _ happly
    simp [harmless, horderly, hclobbers]

/--
After a harmless run every line can be checked, so that it can be told whether the derivation is
solved, and it can be displayed. The next orderly edit leaves a line that cannot be checked exactly
if it rewrites one that another line is checked against.
-/
theorem checkable_of_applyAll (start goal : Formula) (direction : Direction) (edits : List Edit)
    (d : Derivation) (hharmless : throughout harmless (begin start goal direction) edits = true)
    (happly : (begin start goal direction).applyAll edits = .ok d) :
    Checkable d ∧ (∃ solved, d.isSolved = .ok solved) ∧ (∃ lines, d.view = .ok lines)
      ∧ ∀ edit next, d.orderly edit = true → d.apply edit = .ok next →
        (Checkable next ↔ d.clobbers edit = false) := by
  have hinvariant : Tidy d ∧ Upheld d.rows := by
    refine Run.throughout_induction (motive := fun d => Tidy d ∧ Upheld d.rows) ?_
      ⟨tidy_begin start goal direction, upheld_begin start goal direction⟩ hharmless happly
    intro d edit next ⟨htidy, hupheld⟩ hharmless happly
    refine ⟨htidy.of_apply_eq_ok ?_ happly, hupheld.of_apply_eq_ok htidy hharmless happly⟩
    rw [harmless, Bool.and_eq_true] at hharmless
    exact hharmless.1
  obtain ⟨htidy, hupheld⟩ := hinvariant
  have hcheckable : Checkable d := fun i hi => htidy.exists_isCorrect_eq_ok hupheld hi
  refine ⟨hcheckable, hcheckable.exists_isSolved_eq_ok, hcheckable.exists_view_eq_ok, ?_⟩
  exact fun edit next horderly happly => htidy.checkable_iff_clobbers hupheld horderly happly

def sharedStart : Derivation :=
  let t : Formula := .const true
  let f : Formula := .const false
  begin (.conj t f) (.disj t f) .backward

def sharedPremise : List Edit :=
  [⟨1, .change .toggleDirection⟩,
    ⟨1, .change (.setRule (some .elimAnd))⟩,
    ⟨1, .change (.setSide (some .left))⟩,
    ⟨1, .change (.setArgument 0 (some ⟨[1]⟩))⟩,
    ⟨2, .change .toggleDirection⟩,
    ⟨2, .change (.setRule (some .introOr))⟩,
    ⟨2, .change (.setSide (some .left))⟩]

theorem sharedPremise_checkable :
    let edits := sharedPremise ++
      [⟨2, .change (.setRule none)⟩, ⟨1, .change (.setSide (some .right))⟩]
    throughout harmless sharedStart edits = true
      ∧ ∃ d, sharedStart.applyAll edits = .ok d
        ∧ d.rows.map (·.line.formula) = [.conj (.const true) (.const false), .const false,
          .disj (.const true) (.const false)]
        ∧ Checkable d := by
  intro edits
  have hharmless : throughout harmless sharedStart edits = true := by decide +kernel
  have hrows : (sharedStart.applyAll edits).toOption.map (·.rows.map (·.line.formula))
      = some [.conj (.const true) (.const false), .const false,
        .disj (.const true) (.const false)] := by
    decide +kernel
  obtain ⟨d, happly, hrows⟩ := exists_of_map_toOption_eq_some hrows
  exact ⟨hharmless, d, happly, hrows,
    (checkable_of_applyAll _ _ _ edits d hharmless happly).1⟩

theorem not_checkable_of_fault {d : Derivation} {i : Nat} {fault : Fault} (hi : i < d.size)
    (hfault : d.isCorrect i = .error fault) : ¬ Checkable d := by
  intro h
  obtain ⟨correct, hcorrect⟩ := h i hi
  simp [hcorrect] at hfault

theorem exists_fault_of_run (d : Derivation) (edits : List Edit) (i n : Nat) (fault : Fault)
    (h : (d.applyAll edits).toOption.map (fun next => (next.size, next.isCorrect i))
      = some (n, .error fault)) (hi : i < n) :
    ∃ next, d.applyAll edits = .ok next ∧ next.isCorrect i = .error fault ∧ ¬ Checkable next := by
  obtain ⟨next, happly, hrun⟩ := exists_of_map_toOption_eq_some h
  obtain ⟨rfl, hfault⟩ := Prod.mk.inj hrun
  exact ⟨next, happly, hfault, not_checkable_of_fault hi hfault⟩

/--
Neither condition can be left out: a line may be rewritten while the goal is checked against it, and
subproofs that clash let the goal find the lines of another one.
-/
theorem applyAll_not_checkable :
    (let edits := sharedPremise ++ [⟨1, .change (.setSide (some .right))⟩]
    throughout orderly sharedStart edits = true
      ∧ ∃ d, sharedStart.applyAll edits = .ok d
        ∧ d.isCorrect 2 = .error (.argumentMismatch 2 ⟨[2]⟩ (.const true) (.const false))
        ∧ ¬ Checkable d)
      ∧
    (let edits := twinSubproofs ++ [⟨3, .delete⟩]
    throughout (fun d edit => !d.overflows edit && !d.clobbers edit) twinStart edits = true
      ∧ ∃ d, twinStart.applyAll edits = .ok d
        ∧ d.isCorrect 5
          = .error (.argumentMismatch 5 ⟨[2, 1]⟩ (.const true) (.neg (.const true)))
        ∧ ¬ Checkable d) := by
  constructor
  . exact ⟨by decide +kernel,
      exists_fault_of_run _ _ _ 3 _ (by decide +kernel) (by decide)⟩
  . exact ⟨by decide +kernel,
      exists_fault_of_run _ _ _ 6 _ (by decide +kernel) (by decide)⟩

end Run

end ProofDesk.Derivation
