import ProofDesk.Proofs.Completion

/-!
This module contains what a line is offered to cite. The choices are looked for among the earlier
lines, and an edit accepts a label of any line that is visible; in proof order this comes to the
same, and nothing that follows from an accepted choice can fail.
-/

namespace ProofDesk.Derivation

variable {d : Derivation} {i slot : Nat} {row : Row} {line : Line} {l : Label}

theorem mem_visibleFrom_iff (h : Ordered d.rows) (hrow : d.rows[i]? = some row) :
    l ∈ d.visibleFrom i ↔ l ∈ d.labels ∧ l.visibleAt row.label := by
  -- Every visible line stands earlier, so looking among the earlier lines misses none.
  have hvisible : d.visibleFrom i
      = ((d.rows.take i).map Row.label).filter (·.visibleAt row.label) := by
    simp [visibleFrom, hrow]
  rw [hvisible, List.mem_filter, List.map_take]
  refine and_congr_left fun hl => ⟨List.mem_of_mem_take, ?_⟩
  intro hmem
  obtain ⟨r, hr, rfl⟩ := List.mem_map.mp hmem
  exact h.label_mem_take_of_before hr hrow (Label.before_of_visibleAt hl)

theorem exists_indexOf_eq_ok (hl : l ∈ d.labels) : ∃ n, d.indexOf l = .ok n := by
  unfold indexOf
  split
  . next n _ => exact ⟨n, rfl⟩
  . next hnone =>
    obtain ⟨r, hr, rfl⟩ := List.mem_map.mp hl
    simpa using List.findIdx?_eq_none_iff.mp hnone r hr

theorem indexOf_eq_error (hl : l ∉ d.labels) : d.indexOf l = .error (.noLabel l) := by
  unfold indexOf
  split
  . next n hsome =>
    obtain ⟨hn, hlabel, -⟩ := List.findIdx?_eq_some_iff_getElem.mp hsome
    have hmem : d.rows[n].label ∈ d.labels := List.mem_map_of_mem (List.getElem_mem hn)
    rw [beq_iff_eq.mp hlabel] at hmem
    exact absurd hmem hl
  . rfl

theorem exists_update_eq_ok_of_forward (h : Ordered d.rows) (hrow : d.rows[i]? = some row)
    (hforward : line.step.direction = .forward)
    (hcited : ∀ label, some label ∈ line.arguments → label ∈ d.labels) :
    ∃ next, d.update i line = .ok next := by
  suffices hreplace : ∃ next, d.replaceLine i row line = .ok next by
    obtain ⟨next, hnext⟩ := hreplace
    rw [update_eq_bind hrow, hnext]
    exact ⟨_, rfl⟩
  by_cases hcomplete : line.step.isComplete = true
  . obtain ⟨formulas, hformulas⟩ :=
      exists_cited_eq_ok h fun label hlabel => List.mem_map.mp (hcited label hlabel)
    cases formulas with
    | none =>
      refine ⟨d.setLine i line, ?_⟩
      simp [replaceLine, hcomplete, hforward, updateForward, hformulas, bind, Except.bind]
    | some premises =>
      by_cases hfits : line.step.fits premises = true
      . obtain ⟨conclusion, hconclude⟩ := Step.exists_conclude_eq_ok hcomplete hforward hfits
        exact ⟨_, replaceLine_of_forward hcomplete hforward hformulas hfits hconclude⟩
      . refine ⟨d.setLine i line, ?_⟩
        simp [replaceLine, hcomplete, hforward, updateForward, hformulas, hfits, bind, Except.bind]
  . exact ⟨d.setLine i line, by simp [replaceLine, hcomplete]⟩

section Choice

variable (hrow : d.rows[i]? = some row) (heditable : row.line.editable = true)
  (hforward : row.line.step.direction = .forward) (hslot : slot < row.line.arguments.length)
include hrow heditable hforward hslot

theorem apply_setArgument_of_mem (hl : l ∈ d.labels) :
    d.apply ⟨i, .change (.setArgument slot (some l))⟩
      =
    if l.visibleAt row.label then
      d.update i { row.line with arguments := row.line.arguments.set slot (some l) }
    else .error (.notVisible i l) := by
  obtain ⟨n, hn⟩ := exists_indexOf_eq_ok hl
  have hchanged : d.changed i row (.setArgument slot (some l))
      = if l.visibleAt row.label then
          .ok { row.line with arguments := row.line.arguments.set slot (some l) }
        else .error (.notVisible i l) := by
    simp [changed, heditable, changeArgument, hforward, Nat.not_le.mpr hslot, hn, bind,
      Except.bind, changeArgument.changed]
  rw [apply_change hrow, hchanged]
  split
  . rfl
  . rfl

theorem apply_setArgument_of_not_mem (hl : l ∉ d.labels) :
    d.apply ⟨i, .change (.setArgument slot (some l))⟩ = .error (.noLabel l) := by
  rw [apply_change hrow]
  simp [changed, heditable, changeArgument, hforward, Nat.not_le.mpr hslot, indexOf_eq_error hl,
    bind, Except.bind]

end Choice

theorem apply_setArgument_iff_mem_visibleFrom (d : Derivation) (h : Ordered d.rows)
    (hcited : ∀ row ∈ d.rows, ∀ label, some label ∈ row.line.arguments → label ∈ d.labels)
    (i : Nat) (row : Row) (hrow : d.rows[i]? = some row) (heditable : row.line.editable = true)
    (hforward : row.line.step.direction = .forward) (slot : Nat)
    (hslot : slot < row.line.arguments.length) (l : Label) :
    ((∃ next, d.apply ⟨i, .change (.setArgument slot (some l))⟩ = .ok next)
        ↔ l ∈ d.visibleFrom i)
      ∧ (l ∉ d.visibleFrom i → l ∉ d.labels →
        d.apply ⟨i, .change (.setArgument slot (some l))⟩ = .error (.noLabel l))
      ∧ (l ∉ d.visibleFrom i → l ∈ d.labels →
        d.apply ⟨i, .change (.setArgument slot (some l))⟩ = .error (.notVisible i l)) := by
  rw [mem_visibleFrom_iff h hrow]
  by_cases hl : l ∈ d.labels
  . rw [apply_setArgument_of_mem hrow heditable hforward hslot hl]
    by_cases hvisible : l.visibleAt row.label = true
    . have hupdate : ∃ next, d.update i
          { row.line with arguments := row.line.arguments.set slot (some l) } = .ok next := by
        refine exists_update_eq_ok_of_forward h hrow ?_ ?_
        . exact hforward
        . intro label hlabel
          rcases List.mem_or_eq_of_mem_set hlabel with hlabel | hlabel
          . exact hcited row (List.mem_of_getElem? hrow) label hlabel
          . rwa [Option.some.inj hlabel]
      simp [hl, hvisible, hupdate]
    . simp [hl, hvisible]
  . rw [apply_setArgument_of_not_mem hrow heditable hforward hslot hl]
    simp [hl]

theorem underway_offers :
    underway.visibleFrom 2 = [⟨[1]⟩, ⟨[2, 1]⟩]
      ∧ (∃ next, underway.apply ⟨2, .change (.setArgument 0 (some ⟨[2, 1]⟩))⟩ = .ok next)
      ∧ underway.apply ⟨2, .change (.setArgument 0 (some ⟨[3]⟩))⟩ = .error (.noLabel ⟨[3]⟩)
      ∧ underway.apply ⟨2, .change (.setArgument 0 (some ⟨[2]⟩))⟩
        = .error (.notVisible 2 ⟨[2]⟩) := by
  have hcited : ∀ row ∈ underway.rows, ∀ label, some label ∈ row.line.arguments →
      label ∈ underway.labels := by
    intro row hrow label hlabel
    obtain ⟨i, hi⟩ := List.getElem?_of_mem hrow
    exact List.mem_of_mem_take (regular_underway.earlier i row hi label hlabel)
  have h := apply_setArgument_iff_mem_visibleFrom underway regular_underway.ordered hcited 2 _ rfl
    rfl rfl 0 (by decide)
  refine ⟨by decide, (h _).1.mpr (by decide), (h _).2.1 (by decide) (by decide), ?_⟩
  exact (h _).2.2 (by decide) (by decide)

end ProofDesk.Derivation
