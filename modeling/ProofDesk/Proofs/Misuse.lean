import ProofDesk.Proofs.Fitted

/-!
This module contains the faults that cannot occur. A step that is complete and fits can always be
used, so neither an edit nor the check ever fails because a rule was applied where it cannot be.
-/

namespace ProofDesk

def Fault.isMisuse : Fault → Bool
  | step _ => true
  | argumentCount .. => true
  | _ => false

def NoMisuse {α : Type} (x : Except Fault α) : Prop :=
  ∀ fault, x = .error fault → fault.isMisuse = false

namespace NoMisuse

variable {α β : Type}

theorem ok (a : α) : NoMisuse (.ok a) := by
  simp [NoMisuse]

theorem error {fault : Fault} (h : fault.isMisuse = false) :
    NoMisuse (.error fault : Except Fault α) := by
  simpa [NoMisuse] using h

theorem bind {x : Except Fault α} {f : α → Except Fault β} (h : NoMisuse x)
    (hf : ∀ a, x = .ok a → NoMisuse (f a)) : NoMisuse (x >>= f) := by
  cases x with
  | error fault => exact error (h fault rfl)
  | ok a => exact hf a rfl

end NoMisuse

namespace Derivation

variable {d : Derivation} {row : Row} {line : Line}

theorem noMisuse_row (i : Nat) : NoMisuse (d.row i) := by
  unfold Derivation.row
  split
  . exact .ok _
  . exact .error rfl

theorem noMisuse_indexOf (label : Label) : NoMisuse (d.indexOf label) := by
  unfold indexOf
  split
  . exact .ok _
  . exact .error rfl

theorem noMisuse_lineAt (label : Label) : NoMisuse (d.lineAt label) := by
  unfold lineAt
  split
  . exact .ok _
  . exact .error rfl

theorem noMisuse_cited (arguments : List (Option Label)) : NoMisuse (d.cited arguments) := by
  fun_induction cited d arguments with
  | case1 => exact .ok _
  | case2 => exact .ok _
  | case3 label arguments ih =>
    refine (noMisuse_lineAt label).bind fun line _ => ?_
    exact ih.bind fun formulas _ => .ok _

theorem noMisuse_holdsGoals (i : Nat) (goals : List Formula) (arguments : List (Option Label)) :
    NoMisuse (d.holdsGoals i goals arguments) := by
  fun_induction holdsGoals d i goals arguments with
  | case1 goal goals label arguments ih =>
    refine (noMisuse_lineAt label).bind fun line _ => ?_
    split
    . exact ih
    . exact .error rfl
  | case2 => exact .ok _
  | case3 => exact .ok _

section Check

theorem noMisuse_concludes {premises : List Formula} (hcomplete : line.step.isComplete = true)
    (hdirection : line.step.direction = .forward) : NoMisuse (concludes line premises) := by
  unfold concludes
  split
  . next hfits =>
    obtain ⟨conclusion, hconclude⟩ := Step.exists_conclude_eq_ok hcomplete hdirection hfits
    rw [hconclude]
    exact .ok _
  . exact .ok _

theorem noMisuse_checkForward (hcomplete : row.line.step.isComplete = true)
    (hdirection : row.line.step.direction = .forward) : NoMisuse (d.checkForward row) := by
  unfold checkForward
  split
  . refine (noMisuse_cited _).bind fun premises _ => ?_
    cases premises with
    | none => exact .ok _
    | some premises => exact noMisuse_concludes hcomplete hdirection
  . exact .ok _

theorem noMisuse_checkBackward (i : Nat) (hcomplete : line.step.isComplete = true)
    (hdirection : line.step.direction = .backward)
    (harity : line.arguments.length = line.step.arity) : NoMisuse (d.checkBackward i line) := by
  unfold checkBackward
  split
  . next hfits =>
    obtain ⟨goals, hgoals⟩ := Step.exists_reduce_eq_ok hcomplete hdirection hfits (fun _ => rfl)
    have hlen : goals.length = line.arguments.length := by
      rw [harity]
      exact Step.length_of_reduce_eq_ok hgoals
    rw [hgoals]
    simp only [liftStep, bind, Except.bind]
    rw [if_pos hlen]
    exact noMisuse_holdsGoals i goals line.arguments
  . exact .ok _

variable (hfitted : ∀ row ∈ d.rows, row.line.Fitted)
include hfitted

theorem noMisuse_isCorrect (i : Nat) : NoMisuse (d.isCorrect i) := by
  unfold isCorrect
  refine (noMisuse_row i).bind fun row hrow => ?_
  have hmem := List.mem_of_getElem? (row_eq_ok.mp hrow)
  split
  . next hcomplete =>
    split
    . next hdirection => exact noMisuse_checkForward hcomplete hdirection
    . next hdirection =>
      exact noMisuse_checkBackward i hcomplete hdirection (hfitted row hmem).arity
  . exact .ok _

theorem noMisuse_isSolved : NoMisuse d.isSolved := by
  unfold isSolved
  generalize List.range d.size = indices
  induction indices with
  | nil => exact .ok _
  | cons i indices ih =>
    unfold isSolved.go
    refine (noMisuse_isCorrect hfitted i).bind fun correct _ => ?_
    split
    . exact ih
    . exact .ok _

end Check

section Edit

variable {i : Nat}

theorem noMisuse_changeReading (change : Reading → Reading) :
    NoMisuse (changeReading i line change) := by
  unfold changeReading
  split
  . exact .ok _
  . exact .error rfl

theorem noMisuse_changed (change : Change) : NoMisuse (d.changed i row change) := by
  unfold changed
  dsimp only
  split
  . cases change with
    | setRule rule =>
      dsimp only
      unfold changeRule
      split
      . exact .error rfl
      . split
        . exact .error rfl
        . exact .ok _
    | toggleDirection => exact .ok _
    | setSide side => exact .ok _
    | setLaw law => exact noMisuse_changeReading _
    | setLeftToRight leftToRight => exact noMisuse_changeReading _
    | setLattice lattice => exact noMisuse_changeReading _
    | setChosen chosen =>
      dsimp only
      unfold changeChosen
      split
      . exact .ok _
      . exact .error rfl
    | setArgument slot label =>
      dsimp only
      unfold changeArgument
      split
      . exact .error rfl
      . split
        . exact .error rfl
        . split
          . exact .ok _
          . refine (noMisuse_indexOf _).bind fun _ _ => ?_
            split
            . exact .ok _
            . exact .error rfl
  . exact .error rfl

theorem noMisuse_expand (hrow : d.rows[i]? = some row) (hcomplete : line.step.isComplete = true)
    (hdirection : line.step.direction = .backward) (hfits : line.step.fits [line.formula] = true)
    (previous : Stamp) : NoMisuse (d.expand i line previous) := by
  -- The line is found among the rows that remain, so its step can be used there.
  unfold expand
  dsimp only
  generalize hremoved : removeAround (d.setLine i line).rows i
    (generated (d.setLine i line).rows previous) = removed
  obtain ⟨rows, j⟩ := removed
  obtain ⟨-, row', hrow', hbare⟩ := exists_removeAround_setLine hrow hremoved
  have hstep : row'.line.step = line.step := by simpa using congrArg Line.step hbare
  have hformula : row'.line.formula = line.formula := by simpa using congrArg Line.formula hbare
  obtain ⟨goals, hgoals⟩ := Step.exists_reduce_eq_ok hcomplete hdirection hfits (fun _ => rfl)
  dsimp only
  rw [row_eq_ok.mpr hrow']
  simp only [bind, Except.bind, hstep, hformula, hgoals, liftStep]
  split
  . next hrule =>
    obtain ⟨premise, goal, -, rfl⟩ := Step.reduce_directProof hgoals hrule
    exact .ok _
  . exact .ok _

theorem noMisuse_updateForward (hcomplete : line.step.isComplete = true)
    (hdirection : line.step.direction = .forward) : NoMisuse (d.updateForward i row line) := by
  unfold updateForward
  refine (noMisuse_cited _).bind fun premises _ => ?_
  cases premises with
  | none => exact .ok _
  | some premises =>
    dsimp only
    split
    . next hfits =>
      obtain ⟨conclusion, hconclude⟩ := Step.exists_conclude_eq_ok hcomplete hdirection hfits
      rw [hconclude]
      exact .ok _
    . exact .ok _

theorem noMisuse_replaceLine (hrow : d.rows[i]? = some row) :
    NoMisuse (d.replaceLine i row line) := by
  unfold replaceLine
  split
  . next hcomplete =>
    split
    . next hdirection =>
      unfold updateBackward
      split
      . next hfits => exact noMisuse_expand hrow hcomplete hdirection hfits _
      . exact .ok _
    . next hdirection => exact noMisuse_updateForward hcomplete hdirection
  . exact .ok _

theorem noMisuse_apply (d : Derivation) (edit : Edit) : NoMisuse (d.apply edit) := by
  unfold apply
  refine (noMisuse_row edit.line).bind fun row hrow => ?_
  cases haction : edit.action with
  | toggleEditing => exact .ok _
  | delete =>
    dsimp only
    unfold delete
    split
    . exact .error rfl
    . exact .ok _
  | change change =>
    refine (noMisuse_changed change).bind fun line _ => ?_
    unfold update
    refine (noMisuse_row edit.line).bind fun row hrow => ?_
    refine (noMisuse_replaceLine (row_eq_ok.mp hrow)).bind fun next _ => ?_
    exact .ok _

end Edit

theorem fitted_and_noMisuse_of_applyAll (d₀ d : Derivation) (edits : List Edit) (h : Initial d₀)
    (happly : d₀.applyAll edits = .ok d) :
    d.labels.length = d.lines.length
      ∧ (∀ line ∈ d.lines, line.Fitted)
      ∧ (∀ edit, NoMisuse (d.apply edit))
      ∧ (∀ i, NoMisuse (d.isCorrect i))
      ∧ NoMisuse d.isSolved := by
  have hfitted := fitted_of_applyAll h happly
  refine ⟨by simp [labels, lines], ?_, noMisuse_apply d, ?_, ?_⟩
  . rw [lines, List.forall_mem_map]
    exact hfitted
  . exact noMisuse_isCorrect hfitted
  . exact noMisuse_isSolved hfitted

def foreignSnapshot : Snapshot where
  start := some "P and Q"
  goal := some "Q and P"
  lines :=
    [record "P and Q" 8 false [],
      record "Q implies P" 1 true [some "1"],
      record "Q and P" 7 true [some "1", some "2"]]
  labels := ["1", "2", "3"]
where
  record (formula : String) (rule : Int) (forward : Bool) (arguments : List (Option String)) :
      LineRecord :=
    ⟨formula, rule, forward, 0, false, true, false, arguments, none, none, none⟩

def foreignEdits : List Edit :=
  [⟨2, .change (.setLaw (some .commutativity))⟩,
    ⟨1, .change .toggleDirection⟩,
    ⟨0, .change .toggleDirection⟩]

theorem foreignSnapshot_fitted_and_noMisuse :
    ∃ d₀ d, foreignSnapshot.toDerivation .standard = .ok d₀ ∧ d₀.applyAll foreignEdits = .ok d
      ∧ d.labels = [⟨[1]⟩, ⟨[2, 1]⟩, ⟨[2, 2]⟩, ⟨[2]⟩, ⟨[3]⟩]
      ∧ d.labels.length = d.lines.length
      ∧ (∀ line ∈ d.lines, line.Fitted)
      ∧ (∀ edit, NoMisuse (d.apply edit))
      ∧ (∀ i, NoMisuse (d.isCorrect i))
      ∧ NoMisuse d.isSolved := by
  have hstored : (foreignSnapshot.toDerivation .standard).toOption.map
      (fun d₀ => (d₀.applyAll foreignEdits).toOption.map labels)
      = some (some [⟨[1]⟩, ⟨[2, 1]⟩, ⟨[2, 2]⟩, ⟨[2]⟩, ⟨[3]⟩]) := by
    decide +kernel
  obtain ⟨d₀, hd₀, hrun⟩ := exists_of_map_toOption_eq_some hstored
  obtain ⟨d, happly, hlabels⟩ := exists_of_map_toOption_eq_some hrun
  refine ⟨d₀, d, hd₀, happly, hlabels, ?_⟩
  exact fitted_and_noMisuse_of_applyAll d₀ d foreignEdits (.stored _ _ d₀ hd₀) happly

end Derivation

end ProofDesk
