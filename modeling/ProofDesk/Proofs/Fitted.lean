import ProofDesk.Proofs.Edit.Moves
import ProofDesk.Proofs.Initial
import ProofDesk.Proofs.Run

/-!
This module contains the shape of the lines after any run, from fresh and stored derivations alike:
a line has one slot for each argument of its step, and only equivalence steps have a law.
-/

namespace ProofDesk

structure Step.Settled (s : Step) : Prop where
  reading : s.reading.isSome = true ↔ s.rule = some .equivalence
  chosen : s.rule ≠ some .equivalence → s.chosen = none

structure Line.Fitted (line : Line) : Prop where
  arity : line.arguments.length = line.step.arity
  settled : line.step.Settled

theorem Step.settled_setRule (s : Step) (rule : Option Rule) : (s.setRule rule).Settled := by
  unfold setRule
  split
  . next h => exact ⟨by simp [h], fun hne => absurd h hne⟩
  . next h => exact ⟨by simp [h], fun _ => rfl⟩

theorem Line.fitted_new (formula : Formula) (stamp : Stamp) (rule : Option Rule)
    (direction : Direction) (fixed editable : Bool) :
    (Line.new formula stamp (.ofRule rule direction) fixed editable).Fitted :=
  ⟨by simp [Line.new], Step.settled_setRule ..⟩

namespace Derivation

theorem fitted_bare {row : Row} : (bare row).Fitted ↔ row.line.Fitted := by
  constructor
  . intro h
    exact ⟨by simpa using h.arity, h.settled⟩
  . intro h
    exact ⟨by simpa using h.arity, h.settled⟩

section Edit

variable {row : Row} {line : Line}

theorem fitted_turn (h : line.Fitted) : (turn line).Fitted := by
  unfold turn
  dsimp only
  split
  . have hsettled := Step.settled_setRule line.step none
    exact ⟨Line.length_fitArguments _, ⟨hsettled.reading, hsettled.chosen⟩⟩
  . exact ⟨Line.length_fitArguments _, ⟨h.settled.reading, h.settled.chosen⟩⟩

theorem Altered.fitted {rows : List Row} (h : Altered rows row line) (hrow : row.line.Fitted) :
    line.Fitted := by
  obtain ⟨harity, hsettled⟩ := hrow
  cases h with
  | rule rule hassumption hdirect =>
    exact ⟨Line.length_fitArguments _, Step.settled_setRule ..⟩
  | turned => exact fitted_turn ⟨harity, hsettled⟩
  | side side => exact ⟨harity, ⟨hsettled.reading, hsettled.chosen⟩⟩
  | reading reading hreading =>
    have hrule := hsettled.reading.mp hreading
    exact ⟨harity, ⟨by simpa using hrule, hsettled.chosen⟩⟩
  | chosen chosen hreading =>
    have hrule := hsettled.reading.mp hreading
    exact ⟨harity, ⟨hsettled.reading, fun hne => absurd hrule hne⟩⟩
  | argument slot label hlabel => exact ⟨by simpa using harity, hsettled⟩

theorem Variant.fitted {a b : Line} (h : Variant a b) (ha : a.Fitted) : b.Fitted := by
  cases h with
  | same => exact ha
  | shown | unlinked | linked => exact ⟨ha.arity, ha.settled⟩
  | filled line arguments hlen => exact ⟨hlen, ha.settled⟩
  | reset => exact Line.fitted_new ..
  | copied rows row heditable line hline label =>
    exact fitted_bare.mpr (hline.fitted (fitted_bare.mp ha))

theorem Fresh.fitted {before after : List Line} {stamp : Stamp} (h : Fresh before after stamp line)
    (hlines : ∀ line ∈ before ++ after, line.Fitted) : line.Fitted := by
  cases h with
  | goal target htarget goal =>
    have hnew := Line.fitted_new goal stamp none .backward true true
    exact ⟨hnew.arity, hnew.settled⟩
  | assumption target htarget premise =>
    have hnew := Line.fitted_new premise stamp (some .assumption) .backward true false
    exact ⟨hnew.arity, hnew.settled⟩
  | conclusion rows row hrow heditable line hline label conclusion fixed editable =>
    have hcopy := hline.fitted (fitted_bare.mp (hlines _ hrow))
    exact fitted_bare.mpr ⟨hcopy.arity, hcopy.settled⟩

theorem fitted_of_apply_eq_ok {d next : Derivation} {edit : Edit}
    (h : ∀ row ∈ d.rows, row.line.Fitted) (happly : d.apply edit = .ok next) :
    ∀ row ∈ next.rows, row.line.Fitted := by
  have hbare : ∀ rows : List Row, (∀ line ∈ rows.map bare, line.Fitted)
      ↔ ∀ row ∈ rows, row.line.Fitted := by
    intro rows
    simp only [List.forall_mem_map, fitted_bare]
  rw [← hbare] at h ⊢
  exact (moves_of_apply_eq_ok happly).forall_lines (fun _ _ h => h.fitted)
    (fun _ _ _ _ h => h.fitted) h

end Edit

section Stored

variable {r : LineRecord} {own : Label} {labels : List Label}

theorem LineRecord.settled_of_toStep_eq_ok {step : Step} (h : r.toStep = .ok step) :
    step.Settled := by
  obtain ⟨law, lattice, rfl⟩ | ⟨rule, side, rfl⟩ := exists_of_toStep_eq_ok h
  . have hrule : (Step.ofRule (some .equivalence) (.ofForward r.forward)).rule
        = some .equivalence :=
      Step.rule_setRule ..
    exact ⟨by simp [hrule], fun hne => absurd hrule hne⟩
  . have hsettled : (Step.ofRule rule (.ofForward r.forward)).Settled := Step.settled_setRule ..
    exact ⟨hsettled.reading, hsettled.chosen⟩

theorem LineRecord.length_of_toArguments_eq_ok {n : Nat} {texts : List (Option String)}
    {arguments : List (Option Label)} (h : r.toArguments own labels n texts = .ok arguments) :
    arguments.length = n := by
  fun_induction toArguments r own labels n texts generalizing arguments with
  | case1 => simp_all
  | case2 n =>
    simp only [Except.ok.injEq] at h
    rw [← h, List.length_replicate]
  | case3 n texts ih =>
    obtain ⟨rest, hrest, h⟩ := exists_of_bind_eq_ok h
    simp only [pure, Except.pure, Except.ok.injEq] at h
    rw [← h, List.length_cons, ih hrest]
  | case4 n text texts ih =>
    obtain ⟨label, -, h⟩ := exists_of_bind_eq_ok h
    obtain ⟨rest, hrest, h⟩ := exists_of_bind_eq_ok h
    simp only [pure, Except.pure, Except.ok.injEq] at h
    rw [← h, List.length_cons, ih hrest]

theorem LineRecord.fitted_of_toLine_eq_ok {stamp : Stamp} {line : Line}
    (h : r.toLine own labels stamp = .ok line) : line.Fitted := by
  obtain ⟨formula, step, arguments, -, hstep, harguments, rfl⟩ := exists_of_toLine_eq_ok h
  exact ⟨length_of_toArguments_eq_ok harguments, settled_of_toStep_eq_ok hstep⟩

theorem Initial.fitted {d : Derivation} (h : Initial d) : ∀ row ∈ d.rows, row.line.Fitted := by
  refine h.forall_lines ?_ ?_
  . intro start goal direction
    simp only [begin, List.mem_cons, List.not_mem_nil, or_false, forall_eq_or_imp, forall_eq]
    exact ⟨Line.fitted_new .., Line.fitted_new ..⟩
  . intro r own labels stamp line hline
    exact LineRecord.fitted_of_toLine_eq_ok hline

end Stored

theorem fitted_of_applyAll {d₀ d : Derivation} {edits : List Edit} (h : Initial d₀)
    (happly : d₀.applyAll edits = .ok d) : ∀ row ∈ d.rows, row.line.Fitted :=
  Run.result_induction (motive := fun d _ => ∀ row ∈ d.rows, row.line.Fitted)
    (fun _ _ _ _ h happly => fitted_of_apply_eq_ok h happly) h.fitted happly

end Derivation

end ProofDesk
