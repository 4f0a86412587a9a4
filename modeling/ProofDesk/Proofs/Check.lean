import Mathlib.Data.List.Forall2
import ProofDesk.Derivation.Check
import ProofDesk.Proofs.Meaning
import ProofDesk.Proofs.Rows

/-!
This module contains what the check of a derivation has seen when it succeeds: every line is
justified by the formulas of the lines it cites. If the rows are in order, the check succeeds on
such a line.
-/

namespace ProofDesk.Derivation

def Cites (rows : List Row) (arg : Option Label) (p : Formula) : Prop :=
  ∃ row ∈ rows, arg = some row.label ∧ row.line.formula = p

inductive Justified (rows : List Row) (row : Row) : Prop where
  | forward (premises : List Formula)
      (conclude : row.line.step.conclude premises = .ok row.line.formula)
      (visible : ∀ label, some label ∈ row.line.arguments → label.visibleAt row.label)
      (cites : List.Forall₂ (Cites rows) row.line.arguments premises)
  | backward (goals : List Formula)
      (reduce : row.line.step.reduce [row.line.formula] = .ok goals)
      (cites : List.Forall₂ (Cites rows) row.line.arguments goals)

variable {d : Derivation}

theorem row_eq_ok {i : Nat} {row : Row} : d.row i = .ok row ↔ d.rows[i]? = some row := by
  unfold Derivation.row
  split <;> simp_all

theorem liftStep_eq_ok {α : Type} {x : Except StepError α} {a : α} :
    liftStep x = .ok a ↔ x = .ok a := by
  cases x <;> simp [liftStep]

theorem exists_of_lineAt_eq_ok {label : Label} {line : Line} (h : d.lineAt label = .ok line) :
    ∃ row ∈ d.rows, row.label = label ∧ row.line = line := by
  unfold lineAt at h
  split at h
  . next row hrow =>
    simp only [Except.ok.injEq] at h
    exact ⟨row, List.mem_of_find?_eq_some hrow, by simpa using List.find?_some hrow, h⟩
  . simp at h

theorem cites_of_lineAt_eq_ok {label : Label} {line : Line} (h : d.lineAt label = .ok line) :
    Cites d.rows (some label) line.formula := by
  obtain ⟨row, hrow, hlabel, hline⟩ := exists_of_lineAt_eq_ok h
  exact ⟨row, hrow, by rw [hlabel], by rw [hline]⟩

theorem cites_of_cited_eq_ok {args : List (Option Label)} {formulas : List Formula}
    (h : d.cited args = .ok (some formulas)) : List.Forall₂ (Cites d.rows) args formulas := by
  induction args generalizing formulas with
  | nil =>
    simp only [cited, Except.ok.injEq, Option.some.injEq] at h
    subst h
    exact .nil
  | cons arg args ih =>
    cases arg with
    | none => simp [cited] at h
    | some label =>
      cases hline : d.lineAt label with
      | error e => simp [cited, hline, bind, Except.bind] at h
      | ok line =>
        cases hrest : d.cited args with
        | error e => simp [cited, hline, hrest, bind, Except.bind] at h
        | ok rest =>
          simp only [cited, hline, hrest, bind, Except.bind, pure, Except.pure, Except.ok.injEq,
            Option.map_eq_some_iff] at h
          obtain ⟨rest', hrest', h⟩ := h
          subst hrest' h
          exact .cons (cites_of_lineAt_eq_ok hline) (ih hrest)

theorem cites_of_holdsGoals_eq_ok {i : Nat} {goals : List Formula} {args : List (Option Label)}
    (hlen : goals.length = args.length) (h : d.holdsGoals i goals args = .ok true) :
    List.Forall₂ (Cites d.rows) args goals := by
  induction goals generalizing args with
  | nil =>
    have : args = [] := by simpa using hlen.symm
    subst this
    exact .nil
  | cons goal goals ih =>
    cases args with
    | nil => simp at hlen
    | cons arg args =>
      cases arg with
      | none => simp [holdsGoals] at h
      | some label =>
        cases hline : d.lineAt label with
        | error e => simp [holdsGoals, hline, bind, Except.bind] at h
        | ok line =>
          simp only [holdsGoals, hline, bind, Except.bind] at h
          split at h
          . next hgoal =>
            have := cites_of_lineAt_eq_ok hline
            rw [hgoal] at this
            exact .cons this (ih (by simpa using hlen) h)
          . simp at h

theorem citesVisible_iff {row : Row} :
    citesVisible row = true
      ↔
    ∀ label, some label ∈ row.line.arguments → label.visibleAt row.label := by
  simp only [citesVisible, List.all_eq_true]
  constructor
  . intro h label hlabel
    simpa using h _ hlabel
  . intro h arg harg
    cases arg with
    | none => rfl
    | some label => simpa using h label harg

theorem conclude_of_concludes_eq_ok {line : Line} {premises : List Formula}
    (h : concludes line premises = .ok true) : line.step.conclude premises = .ok line.formula := by
  unfold concludes at h
  split at h
  . cases hc : line.step.conclude premises with
    | error e => simp [hc, liftStep, Except.map] at h
    | ok q =>
      simp only [hc, liftStep, Except.map, Except.ok.injEq, beq_iff_eq] at h
      rw [h]
  . simp at h

theorem justified_of_checkForward_eq_ok {row : Row} (h : d.checkForward row = .ok true) :
    Justified d.rows row := by
  unfold checkForward at h
  split at h
  . next hvisible =>
    cases hcited : d.cited row.line.arguments with
    | error e => simp [hcited, bind, Except.bind] at h
    | ok premises =>
      cases premises with
      | none => simp [hcited, bind, Except.bind] at h
      | some premises =>
        simp only [hcited, bind, Except.bind] at h
        apply Justified.forward premises
        . exact conclude_of_concludes_eq_ok h
        . exact citesVisible_iff.mp hvisible
        . exact cites_of_cited_eq_ok hcited
  . simp at h

theorem justified_of_checkBackward_eq_ok {i : Nat} {row : Row}
    (h : d.checkBackward i row.line = .ok true) : Justified d.rows row := by
  unfold checkBackward at h
  split at h
  . cases hreduce : row.line.step.reduce [row.line.formula] with
    | error e => simp [hreduce, liftStep, bind, Except.bind] at h
    | ok goals =>
      simp only [hreduce, liftStep, bind, Except.bind] at h
      split at h
      . next hlen => exact .backward goals hreduce (cites_of_holdsGoals_eq_ok hlen h)
      . simp at h
  . simp at h

theorem justified_of_isCorrect_eq_ok {i : Nat} {row : Row} (hrow : d.rows[i]? = some row)
    (h : d.isCorrect i = .ok true) : Justified d.rows row := by
  unfold isCorrect at h
  simp only [row_eq_ok.mpr hrow, bind, Except.bind] at h
  split at h
  . split at h
    . exact justified_of_checkForward_eq_ok h
    . exact justified_of_checkBackward_eq_ok h
  . simp at h

theorem isSolved.go_eq_ok_true {indices : List Nat} :
    isSolved.go d indices = .ok true ↔ ∀ i ∈ indices, d.isCorrect i = .ok true := by
  induction indices with
  | nil => simp [isSolved.go]
  | cons i indices ih =>
    simp only [isSolved.go, List.mem_cons, forall_eq_or_imp]
    cases hi : d.isCorrect i with
    | error e => simp [bind, Except.bind]
    | ok correct => cases correct <;> simp [bind, Except.bind, ih]

theorem isSolved_eq_ok_true :
    d.isSolved = .ok true ↔ ∀ i < d.size, d.isCorrect i = .ok true := by
  simp [isSolved, isSolved.go_eq_ok_true]

theorem justified_of_isSolved (h : d.isSolved = .ok true) {row : Row} (hrow : row ∈ d.rows) :
    Justified d.rows row := by
  obtain ⟨i, hi, hrow⟩ := List.getElem_of_mem hrow
  have := isSolved_eq_ok_true.mp h i hi
  exact justified_of_isCorrect_eq_ok (by rw [List.getElem?_eq_getElem hi, hrow]) this

section Succeeds

variable {i : Nat} {row : Row} {args : List (Option Label)} {ps : List Formula}
  (hordered : Ordered d.rows)
include hordered

theorem lineAt_eq_ok (hrow : row ∈ d.rows) :
    d.lineAt row.label = .ok row.line := by
  unfold lineAt
  cases hfind : d.rows.find? (·.label == row.label) with
  | none =>
    have := List.find?_eq_none.mp hfind row hrow
    simp at this
  | some r =>
    have hlabel : r.label = row.label := by simpa using List.find?_some hfind
    rw [hordered.eq_of_label_eq (List.mem_of_find?_eq_some hfind) hrow hlabel]

theorem cited_eq_ok (hcites : List.Forall₂ (Cites d.rows) args ps) :
    d.cited args = .ok (some ps) := by
  induction hcites with
  | nil => rfl
  | cons hcite _ ih =>
    obtain ⟨r, hr, rfl, rfl⟩ := hcite
    rw [cited, lineAt_eq_ok hordered hr, ih]
    rfl

theorem exists_cited_eq_ok
    (hargs : ∀ label, some label ∈ args → ∃ row ∈ d.rows, row.label = label) :
    ∃ formulas, d.cited args = .ok formulas := by
  induction args with
  | nil => exact ⟨some [], rfl⟩
  | cons arg args ih =>
    cases arg with
    | none => exact ⟨none, rfl⟩
    | some label =>
      obtain ⟨row, hrow, rfl⟩ := hargs label List.mem_cons_self
      obtain ⟨formulas, hformulas⟩ := ih fun l hl => hargs l (List.mem_cons_of_mem _ hl)
      simp [cited, lineAt_eq_ok hordered hrow, hformulas, bind, Except.bind, pure, Except.pure]

theorem holdsGoals_eq_ok (hcites : List.Forall₂ (Cites d.rows) args ps) :
    d.holdsGoals i ps args = .ok true := by
  induction hcites with
  | nil => rfl
  | cons hcite _ ih =>
    obtain ⟨r, hr, rfl, rfl⟩ := hcite
    rw [holdsGoals, lineAt_eq_ok hordered hr]
    simpa [bind, Except.bind] using ih

variable (hrow : d.rows[i]? = some row)
include hrow

theorem isCorrect_of_forward (hforward : row.line.step.direction = .forward)
    (hconclude : row.line.step.conclude ps = .ok row.line.formula)
    (hvisible : ∀ label, some label ∈ row.line.arguments → label.visibleAt row.label)
    (hcites : List.Forall₂ (Cites d.rows) row.line.arguments ps) : d.isCorrect i = .ok true := by
  obtain ⟨hcomplete, hfits⟩ := (Step.exists_conclude_eq_ok_iff hforward).mp ⟨_, hconclude⟩
  unfold isCorrect
  simp only [row_eq_ok.mpr hrow, bind, Except.bind, hcomplete, if_true, hforward]
  unfold checkForward concludes
  rw [if_pos (citesVisible_iff.mpr hvisible), cited_eq_ok hordered hcites]
  simp [bind, Except.bind, hfits, hconclude, liftStep, Except.map]

theorem isCorrect_of_backward (hbackward : row.line.step.direction = .backward)
    (hreduce : row.line.step.reduce [row.line.formula] = .ok ps)
    (hcites : List.Forall₂ (Cites d.rows) row.line.arguments ps) : d.isCorrect i = .ok true := by
  obtain ⟨rule, hready, -, -, hfits, -⟩ := Step.reduce_eq_ok.mp hreduce
  obtain ⟨-, -, hcomplete⟩ := Step.ready_eq_ok.mp hready
  unfold isCorrect
  simp only [row_eq_ok.mpr hrow, bind, Except.bind, hcomplete, if_true, hbackward]
  unfold checkBackward
  rw [if_pos (by rw [Step.fits, hbackward]; exact hfits), hreduce]
  simp only [liftStep, bind, Except.bind]
  rw [if_pos hcites.length_eq.symm]
  exact holdsGoals_eq_ok hordered hcites

end Succeeds

end ProofDesk.Derivation
