import ProofDesk.Derivation.Edit

/-!
This module contains the copies that a change can make of a line, and what they share with the line:
its formula and where it comes from, and all citations but one that the change may have set.
-/

namespace ProofDesk

structure Line.Proper (line : Line) : Prop where
  arity : line.arguments.length = line.step.arity
  backward : line.step.rule = some .directProof → line.step.direction = .backward
  locked : line.step.rule = some .assumption → line.editable = false

namespace Line

@[simp]
theorem length_fitArguments (line : Line) :
    line.fitArguments.arguments.length = line.step.arity := by
  simp only [fitArguments, List.length_append, List.length_take, List.length_replicate]
  omega

theorem mem_of_mem_fitArguments (line : Line) {label : Label}
    (h : some label ∈ line.fitArguments.arguments) : some label ∈ line.arguments := by
  simp only [fitArguments, List.mem_append, List.mem_replicate] at h
  cases h with
  | inl h => exact List.mem_of_mem_take h
  | inr h => simp at h

theorem head?_of_head?_fitArguments (line : Line) {label : Label}
    (h : line.fitArguments.arguments.head? = some (some label)) :
    line.arguments.head? = some (some label) := by
  simp only [fitArguments] at h
  cases hargs : line.arguments with
  | nil => cases hn : line.step.arity <;> simp [hargs, hn, List.replicate_succ] at h
  | cons arg args => cases hn : line.step.arity <;> simp_all

theorem proper_new (formula : Formula) (stamp : Stamp) (direction : Direction)
    (fixed editable : Bool) : (new formula stamp (.unknown direction) fixed editable).Proper := by
  refine ⟨by simp [new], ?_, ?_⟩
  . simp [new, Step.unknown, Step.ofRule, Step.setRule]
  . simp [new, Step.unknown, Step.ofRule, Step.setRule]

end Line

theorem Step.rule_setRule (s : Step) (rule : Option Rule) : (s.setRule rule).rule = rule := by
  unfold setRule
  split <;> simp_all

theorem Step.direction_setRule (s : Step) (rule : Option Rule) :
    (s.setRule rule).direction = s.direction := by
  unfold setRule
  split <;> rfl

namespace Derivation

structure Retains (rows : List Row) (row : Row) (line : Line) : Prop where
  formula : line.formula = row.line.formula
  stamp : line.stamp = row.line.stamp
  source : line.source = row.line.source
  fixed : line.fixed = row.line.fixed
  editable : line.editable = row.line.editable
  cited : ∀ label, some label ∈ line.arguments →
    some label ∈ row.line.arguments ∨ label.visibleAt row.label ∧ ∃ r ∈ rows, r.label = label
  head : ∀ label, line.arguments.head? = some (some label) →
    row.line.arguments.head? = some (some label) ∨ label.visibleAt row.label

structure Copied (rows : List Row) (row : Row) (line : Line) : Prop extends
    Retains rows row line where
  proper : line.Proper
  rule_ne_assumption : line.step.rule ≠ some .assumption
  rule_ne_directProof : line.step.direction = .forward → line.step.isComplete = true →
    row.line.step.rule ≠ some .directProof

variable {d : Derivation} {rows : List Row} {i : Nat} {row : Row} {line : Line}

theorem retains_step (step : Step) : Retains rows row { row.line with step } :=
  ⟨rfl, rfl, rfl, rfl, rfl, fun _ h => .inl h, fun _ h => .inl h⟩

theorem Retains.fitArguments (h : Retains rows row line) (step : Step) :
    Retains rows row (Line.fitArguments { line with step }) where
  formula := h.formula
  stamp := h.stamp
  source := h.source
  fixed := h.fixed
  editable := h.editable
  cited := fun label hlabel => h.cited label
    (Line.mem_of_mem_fitArguments { line with step } hlabel)
  head := fun label hlabel => h.head label
    (Line.head?_of_head?_fitArguments { line with step } hlabel)

theorem retains_set {slot : Nat} {label : Option Label}
    (hlabel : ∀ l, label = some l → l.visibleAt row.label ∧ ∃ r ∈ rows, r.label = l) :
    Retains rows row { row.line with arguments := row.line.arguments.set slot label } := by
  refine ⟨rfl, rfl, rfl, rfl, rfl, ?_, ?_⟩
  . intro l hl
    cases List.mem_or_eq_of_mem_set hl with
    | inl hl => exact .inl hl
    | inr hl => exact .inr (hlabel l hl.symm)
  . intro l hl
    cases hargs : row.line.arguments with
    | nil => simp [hargs] at hl
    | cons arg args =>
      cases slot with
      | zero =>
        simp only [hargs, List.set_cons_zero, List.head?_cons, Option.some.injEq] at hl
        exact .inr (hlabel l hl).1
      | succ slot =>
        left
        simpa [hargs] using hl

theorem exists_of_indexOf_eq_ok {label : Label} (h : d.indexOf label = .ok i) :
    ∃ r ∈ d.rows, r.label = label := by
  unfold indexOf at h
  split at h
  . next hfind =>
    obtain ⟨hi, hlabel, -⟩ := List.findIdx?_eq_some_iff_getElem.mp hfind
    exact ⟨_, List.getElem_mem hi, by simpa using hlabel⟩
  . simp at h

theorem editable_of_changed {change : Change} (h : d.changed i row change = .ok line) :
    row.line.editable = true := by
  unfold changed at h
  dsimp only at h
  split at h
  . next heditable => exact heditable
  . simp at h

inductive Altered (rows : List Row) (row : Row) : Line → Prop where
  | rule (rule : Option Rule) (hassumption : rule ≠ some .assumption)
      (hdirect : rule = some .directProof → row.line.step.direction = .backward) :
      Altered rows row (row.line.setRule rule)
  | turned : Altered rows row (turn row.line)
  | side (side : Option Side) :
      Altered rows row { row.line with step := { row.line.step with side } }
  | reading (reading : Reading) (hreading : row.line.step.reading.isSome = true) :
      Altered rows row { row.line with step := { row.line.step with reading := some reading } }
  | chosen (chosen : Option Nat) (hreading : row.line.step.reading.isSome = true) :
      Altered rows row { row.line with step := { row.line.step with chosen } }
  | argument (slot : Nat) (label : Option Label)
      (hlabel : ∀ l, label = some l → l.visibleAt row.label ∧ ∃ r ∈ rows, r.label = l) :
      Altered rows row { row.line with arguments := row.line.arguments.set slot label }

theorem altered_of_changeRule {rule : Option Rule} (h : changeRule i row.line rule = .ok line) :
    Altered rows row line := by
  unfold changeRule at h
  split at h
  . simp at h
  . next hassumption =>
    split at h
    . simp at h
    . next hdirect =>
      simp only [Except.ok.injEq] at h
      subst h
      refine .rule rule hassumption ?_
      intro hrule
      cases hdirection : row.line.step.direction with
      | backward => rfl
      | forward => exact absurd ⟨hrule, hdirection⟩ hdirect

theorem altered_of_changeReading {change : Reading → Reading}
    (h : changeReading i row.line change = .ok line) : Altered rows row line := by
  unfold changeReading at h
  split at h
  . next reading hreading =>
    simp only [Except.ok.injEq] at h
    exact h ▸ .reading _ (by simp [hreading])
  . simp at h

theorem altered_of_changeChosen {chosen : Option Nat}
    (h : changeChosen i row.line chosen = .ok line) : Altered rows row line := by
  unfold changeChosen at h
  split at h
  . next hreading =>
    simp only [Except.ok.injEq] at h
    exact h ▸ .chosen chosen hreading
  . simp at h

theorem altered_of_changeArgument {slot : Nat} {label : Option Label}
    (h : d.changeArgument i row slot label = .ok line) : Altered d.rows row line := by
  unfold changeArgument at h
  split at h
  . simp at h
  . split at h
    . simp at h
    . split at h
      . simp only [Except.ok.injEq] at h
        exact h ▸ .argument slot none (by simp)
      . next l =>
        cases hindex : d.indexOf l with
        | error e => simp [hindex, bind, Except.bind] at h
        | ok n =>
          simp only [hindex, bind, Except.bind] at h
          split at h
          . next hvisible =>
            simp only [Except.ok.injEq] at h
            refine h ▸ .argument slot (some l) ?_
            rintro l' ⟨⟩
            exact ⟨hvisible, exists_of_indexOf_eq_ok hindex⟩
          . simp at h

theorem altered_of_changed {change : Change} (h : d.changed i row change = .ok line) :
    Altered d.rows row line := by
  unfold changed at h
  rw [if_pos (editable_of_changed h)] at h
  cases change with
  | setRule rule => exact altered_of_changeRule h
  | toggleDirection =>
    simp only [Except.ok.injEq] at h
    exact h ▸ .turned
  | setSide side =>
    simp only [Except.ok.injEq] at h
    exact h ▸ .side side
  | setLaw law => exact altered_of_changeReading h
  | setLeftToRight leftToRight => exact altered_of_changeReading h
  | setLattice lattice => exact altered_of_changeReading h
  | setChosen chosen => exact altered_of_changeChosen h
  | setArgument slot label => exact altered_of_changeArgument h

section Change

variable (hproper : row.line.Proper) (heditable : row.line.editable = true)
include hproper heditable

theorem rule_ne_assumption_of_editable : row.line.step.rule ≠ some .assumption := by
  intro h
  have := hproper.locked h
  simp [heditable] at this

theorem copied_of_step {step : Step} (hrule : step.rule = row.line.step.rule)
    (hdirection : step.direction = row.line.step.direction) :
    Copied rows row { row.line with step } := by
  -- A change of the step that keeps rule and direction needs no other slots.
  refine ⟨retains_step step, ⟨?_, ?_, ?_⟩, ?_, ?_⟩
  . have := hproper.arity
    simp_all [Step.arity, Step.inputs, Step.outputs]
  . intro h
    rw [hdirection]
    exact hproper.backward (hrule ▸ h)
  . intro h
    exact hproper.locked (hrule ▸ h)
  . intro h
    exact rule_ne_assumption_of_editable hproper heditable (hrule ▸ h)
  . intro (hforward : step.direction = .forward) _ h
    have := hproper.backward h
    simp [← hdirection, hforward] at this

omit heditable in
theorem copied_setRule {rule : Option Rule} (hassumption : rule ≠ some .assumption)
    (hdirect : rule = some .directProof → row.line.step.direction = .backward) :
    Copied rows row (row.line.setRule rule) := by
  have hrule : (row.line.setRule rule).step.rule = rule := Step.rule_setRule ..
  have hdirection : (row.line.setRule rule).step.direction = row.line.step.direction :=
    Step.direction_setRule ..
  refine ⟨(retains_step row.line.step).fitArguments _, ⟨?_, ?_, ?_⟩, ?_, ?_⟩
  . exact Line.length_fitArguments _
  . rw [hrule, hdirection]
    exact hdirect
  . rw [hrule]
    exact fun h => absurd h hassumption
  . rwa [hrule]
  . rw [hdirection]
    intro hforward _ hdp
    simp [hproper.backward hdp] at hforward

theorem copied_of_turn : Copied rows row (turn row.line) := by
  unfold turn
  dsimp only
  split
  . next hdp =>
    have hrule : ((row.line.setRule none).setDirection row.line.step.direction.flip).step.rule
        = none := Step.rule_setRule ..
    refine ⟨((retains_step row.line.step).fitArguments _).fitArguments _, ⟨?_, ?_, ?_⟩, ?_, ?_⟩
    . exact Line.length_fitArguments _
    . simp [hrule]
    . simp [hrule]
    . simp [hrule]
    . intro _ hcomplete
      simp [Step.isComplete, hrule] at hcomplete
  . next hdp =>
    have hassumption := rule_ne_assumption_of_editable hproper heditable
    refine ⟨(retains_step row.line.step).fitArguments _, ⟨?_, ?_, ?_⟩, ?_, ?_⟩
    . exact Line.length_fitArguments _
    . intro (h : row.line.step.rule = some .directProof)
      have hb := hproper.backward h
      simp [h, hb, Direction.flip] at hdp
    . exact fun h => absurd h hassumption
    . exact hassumption
    . intro (hforward : row.line.step.direction.flip = .forward) _ h
      exact hdp ⟨hforward, h⟩

theorem copied_set {slot : Nat} {label : Option Label}
    (hlabel : ∀ l, label = some l → l.visibleAt row.label ∧ ∃ r ∈ rows, r.label = l) :
    Copied rows row { row.line with arguments := row.line.arguments.set slot label } := by
  refine ⟨retains_set hlabel, ⟨?_, hproper.backward, hproper.locked⟩,
    rule_ne_assumption_of_editable hproper heditable, ?_⟩
  . simpa using hproper.arity
  . intro (hforward : row.line.step.direction = .forward) _ hdp
    simp [hproper.backward hdp] at hforward

theorem copied_of_altered (h : Altered rows row line) : Copied rows row line := by
  cases h with
  | rule rule hassumption hdirect => exact copied_setRule hproper hassumption hdirect
  | turned => exact copied_of_turn hproper heditable
  | side side => exact copied_of_step hproper heditable rfl rfl
  | reading reading hreading => exact copied_of_step hproper heditable rfl rfl
  | chosen chosen hreading => exact copied_of_step hproper heditable rfl rfl
  | argument slot label hlabel => exact copied_set hproper heditable hlabel

end Change

theorem copied_of_changed (hproper : row.line.Proper) {change : Change}
    (h : d.changed i row change = .ok line) : Copied d.rows row line :=
  copied_of_altered hproper (editable_of_changed h) (altered_of_changed h)

theorem retains_of_altered (h : Altered rows row line) : Retains rows row line := by
  cases h with
  | rule rule hassumption hdirect => exact (retains_step row.line.step).fitArguments _
  | turned =>
    unfold turn
    dsimp only
    split
    . exact ((retains_step row.line.step).fitArguments _).fitArguments _
    . exact (retains_step row.line.step).fitArguments _
  | side side => exact retains_step _
  | reading reading hreading => exact retains_step _
  | chosen chosen hreading => exact retains_step _
  | argument slot label hlabel => exact retains_set hlabel

theorem Altered.direction_of_directProof (h : Altered rows row line)
    (hforward : line.step.direction = .forward) (hcomplete : line.step.isComplete = true)
    (hdp : row.line.step.rule = some .directProof) : row.line.step.direction = .forward := by
  -- A direct proof loses its rule when it is turned, so no complete forward copy comes from one.
  cases h with
  | rule rule hassumption hdirect =>
    rw [← hforward]
    exact (Step.direction_setRule ..).symm
  | turned =>
    cases hdirection : row.line.step.direction with
    | forward => rfl
    | backward =>
      have hnone : (turn row.line).step.rule = none := by
        unfold turn
        dsimp only
        rw [hdirection, if_pos ⟨rfl, hdp⟩]
        exact Step.rule_setRule ..
      simp [Step.isComplete, hnone] at hcomplete
  | side | reading | chosen | argument => exact hforward

theorem Altered.exists_eq (h : Altered rows row line) :
    ∃ step arguments, line = { row.line with step, arguments } := by
  cases h with
  | turned =>
    unfold turn
    dsimp only
    split
    . exact ⟨_, _, rfl⟩
    . exact ⟨_, _, rfl⟩
  | rule | side | reading | chosen | argument => exact ⟨_, _, rfl⟩

end Derivation

end ProofDesk
