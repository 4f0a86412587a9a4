import ProofDesk.Proofs.Tidy

/-!
This module contains whole runs of the editor. After every orderly run labels are in order, and
citations name lines that are in scope.
-/

namespace ProofDesk.Derivation

def applyAll (d : Derivation) (edits : List Edit) : Except Fault Derivation :=
  Run.result apply d edits

def throughout (test : Derivation → Edit → Bool) (d : Derivation) (edits : List Edit) : Bool :=
  Run.throughout apply test d edits

structure WellFormed (d : Derivation) : Prop where
  increasing : d.labels.Pairwise fun a b => a.before b
  positive : ∀ label ∈ d.labels, ∀ n ∈ label.parts, 1 ≤ n
  earlier : ∀ (i : Nat) (row : Row), d.rows[i]? = some row →
    ∀ label, some label ∈ row.line.arguments → label ∈ d.labels.take i
  inScope : ∀ row ∈ d.rows, row.line.isForward = true →
    ∀ label, some label ∈ row.line.arguments → label.visibleAt row.label = true

theorem Tidy.wellFormed {d : Derivation} (h : Tidy d) : WellFormed d := by
  refine ⟨?_, ?_, ?_, ?_⟩
  . exact ordered_iff_labels.mp h.laid.ordered
  . simp only [labels, List.forall_mem_map]
    exact fun row hrow n hn => ((h.laid.valid row hrow).2 n hn).1
  . intro i row hrow label hlabel
    have hmem := List.mem_of_getElem? hrow
    obtain ⟨⟨r, hr, rfl⟩, -⟩ := h.laid.anchored row hmem label hlabel
    exact h.laid.ordered.label_mem_take_of_before hr hrow (h.laid.before_of_cited hmem hlabel)
  . intro row hrow hforward label hlabel
    obtain ⟨⟨r, hr, rfl⟩, hscope⟩ := h.laid.anchored row hrow label hlabel
    cases hscope with
    | inl hvisible => exact hvisible
    | inr hchild =>
      have hrule : row.line.step.rule ≠ some .directProof := by
        intro hrule
        simp [Line.isForward, (h.coherent.proper row hrow).backward hrule, Direction.isForward]
          at hforward
      obtain ⟨k, hk⟩ := hchild
      have := h.pruned row hrow hrule r hr
      simp [hk, Label.isInside_child] at this

theorem not_mem_arguments_begin {start goal : Formula} {direction : Direction} {row : Row}
    (hrow : row ∈ (begin start goal direction).rows) (label : Label) :
    some label ∉ row.line.arguments := by
  simp only [begin, List.mem_cons, List.not_mem_nil, or_false] at hrow
  rcases hrow with rfl | rfl
  . simp [Line.new]
  . simp [Line.new]

theorem tidy_begin (start goal : Formula) (direction : Direction) :
    Tidy (begin start goal direction) where
  laid := by
    refine ⟨?_, ?_, ?_, ⟨_, rfl, rfl, rfl, rfl, rfl⟩, ⟨_, rfl, rfl, rfl⟩⟩
    . exact .cons (by simp) (.cons (by simp) .nil)
    . intro row hrow
      simp only [begin, List.mem_cons, List.not_mem_nil, or_false] at hrow
      rcases hrow with rfl | rfl
      . simp [Label.Within, Label.maxPart]
      . simp [Label.Within, Label.maxPart]
    . intro row hrow label hlabel
      exact absurd hlabel (not_mem_arguments_begin hrow label)
  closed := by
    refine .cons_cons ?_ (.singleton _)
    simp [Closes, Label.depth]
  coherent := coherent_begin start goal direction

theorem tidy_of_applyAll {start goal : Formula} {direction : Direction} {edits : List Edit}
    {d : Derivation} (horderly : throughout orderly (begin start goal direction) edits = true)
    (happly : (begin start goal direction).applyAll edits = .ok d) : Tidy d :=
  Run.throughout_induction (fun _ _ _ h horderly happly => h.of_apply_eq_ok horderly happly)
    (tidy_begin start goal direction) horderly happly

theorem wellFormed_of_applyAll (start goal : Formula) (direction : Direction) (edits : List Edit)
    (d : Derivation) (horderly : throughout orderly (begin start goal direction) edits = true)
    (happly : (begin start goal direction).applyAll edits = .ok d) : WellFormed d :=
  (tidy_of_applyAll horderly happly).wellFormed

def twinStart : Derivation :=
  begin (.imp (.const true) (.const true)) (.imp (.const true) (.const false)) .backward

def twinSubproofs : List Edit :=
  [⟨1, .change .toggleDirection⟩,
    ⟨1, .change (.setRule (some .equivalence))⟩,
    ⟨1, .change (.setLaw (some .contrapositive))⟩,
    ⟨1, .change (.setArgument 0 (some ⟨[1]⟩))⟩,
    ⟨1, .change (.setRule none)⟩,
    ⟨1, .change .toggleDirection⟩,
    ⟨1, .change (.setRule (some .directProof))⟩,
    ⟨4, .change .toggleDirection⟩,
    ⟨4, .change (.setRule (some .directProof))⟩]

theorem twinSubproofs_wellFormed :
    let edits := twinSubproofs ++ [⟨6, .change (.setRule none)⟩, ⟨3, .delete⟩]
    throughout orderly twinStart edits = true
      ∧ ∃ d, twinStart.applyAll edits = .ok d ∧ d.labels = [⟨[1]⟩, ⟨[2]⟩] ∧ WellFormed d := by
  intro edits
  have horderly : throughout orderly twinStart edits = true := by decide +kernel
  have hlabels : (twinStart.applyAll edits).toOption.map labels = some [⟨[1]⟩, ⟨[2]⟩] := by
    decide +kernel
  obtain ⟨d, happly, hlabels⟩ := exists_of_map_toOption_eq_some hlabels
  exact ⟨horderly, d, happly, hlabels, wellFormed_of_applyAll _ _ _ edits d horderly happly⟩

theorem twinSubproofs_not_wellFormed :
    let edits := twinSubproofs ++ [⟨3, .delete⟩]
    throughout (fun d edit => !d.overflows edit) twinStart edits = true
      ∧ ∃ d, twinStart.applyAll edits = .ok d
        ∧ d.labels = [⟨[1]⟩, ⟨[2, 1]⟩, ⟨[2, 2]⟩, ⟨[2, 1]⟩, ⟨[2, 2]⟩, ⟨[2]⟩] ∧ ¬ WellFormed d := by
  intro edits
  have hrange : throughout (fun d edit => !d.overflows edit) twinStart edits = true := by
    decide +kernel
  have hlabels : (twinStart.applyAll edits).toOption.map labels
      = some [⟨[1]⟩, ⟨[2, 1]⟩, ⟨[2, 2]⟩, ⟨[2, 1]⟩, ⟨[2, 2]⟩, ⟨[2]⟩] := by
    decide +kernel
  obtain ⟨d, happly, hlabels⟩ := exists_of_map_toOption_eq_some hlabels
  refine ⟨hrange, d, happly, hlabels, ?_⟩
  intro h
  have hincreasing := h.increasing
  rw [hlabels] at hincreasing
  revert hincreasing
  decide

end ProofDesk.Derivation
