import ProofDesk.Proofs.Edit.Reopen

/-!
This module contains what it does to choose a backward rule twice: the second time just the lines
that the first time generated are taken out and generated again, so nothing changes but their
stamps.
-/

namespace ProofDesk.Derivation

section Expand

variable {d : Derivation} {i : Nat} {row : Row} {line : Line} (h : Regular d)
  (hissued : ∀ r ∈ d.rows, r.line.stamp.number < d.stamp.number
    ∧ ∀ s, r.line.source = some s → s.number < d.stamp.number)
  (hrow : d.rows[i]? = some row) (hretains : Retains d.rows row line)
  (hleaves : Leaves d.rows (generated d.rows row.line.stamp))
include h hissued hrow hretains hleaves

theorem Regular.exists_stable_expand (hcomplete : line.step.isComplete = true)
    (hbackward : line.step.direction = .backward)
    (hfits : line.step.fits [line.formula] = true) :
    ∃ b, d.expand i line row.line.stamp = .ok b
      ∧ ({ b with rows := prune b.rows } : Derivation).Stable d.stamp row.line.stamp := by
  obtain ⟨before, after, target, hremove, hbare, hprimed⟩ :=
    h.exists_primed_setLine hrow hretains hissued hleaves
  have hstamp : target.line.stamp = line.stamp := congrArg (·.stamp) hbare
  have hstep : target.line.step = line.step := congrArg (·.step) hbare
  have hformula : target.line.formula = line.formula := congrArg (·.formula) hbare
  obtain ⟨goals, hreduce⟩ := Step.exists_reduce_eq_ok hcomplete hbackward hfits fun _ => rfl
  rw [← hstep] at hcomplete hbackward hfits hreduce
  rw [← hformula] at hfits hreduce
  by_cases hrule : target.line.step.rule = some .directProof
  . obtain ⟨premise, goal, -, rfl⟩ := Step.reduce_directProof hreduce hrule
    refine ⟨_, expand_of_directProof hremove (getElem?_split target) hreduce hrule, ?_⟩
    rw [← hretains.stamp, ← hstamp]
    exact hprimed.stable_openSubproof hcomplete hbackward hfits hreduce hrule rfl
  . refine ⟨_, expand_of_ne_directProof hremove (getElem?_split target) hreduce hrule, ?_⟩
    rw [← hretains.stamp, ← hstamp]
    exact hprimed.stable_supplyGoals hcomplete hbackward hfits hreduce hrule rfl

end Expand

section Edit

variable {d : Derivation} {i : Nat} {row : Row} {line : Line}

/--
Choosing a backward rule again changes nothing but the stamps of the lines that are generated again.
-/
theorem update_again_eq_restamp (change : Change) (h : Regular d)
    (hissued : ∀ r ∈ d.rows, r.line.stamp.number < d.stamp.number
      ∧ ∀ s, r.line.source = some s → s.number < d.stamp.number)
    (hrow : d.rows[i]? = some row) (hcopy : d.changed i row change = .ok line)
    (hcomplete : line.step.isComplete = true) (hbackward : line.step.direction = .backward)
    (hfits : line.step.fits [line.formula] = true)
    (hinside : ∀ j ∈ generated d.rows row.line.stamp, ∀ r, d.rows[j]? = some r →
      ∀ x ∈ d.rows, x.label.isInside r.label = false) :
    ∃ next, d.apply ⟨i, .change change⟩ = .ok next ∧ d.update i line = .ok next
      ∧ (∀ r ∈ next.rows, d.stamp.number ≤ r.line.stamp.number →
        r.line.source = some row.line.stamp)
      ∧ ∃ n, next.stamp = ⟨d.stamp.number + n⟩
        ∧ ∃ j row', next.rows[j]? = some row' ∧ row'.line.stamp = row.line.stamp
          ∧ row'.line.formula = line.formula ∧ row'.line.step = line.step
          ∧ (∀ k r, next.rows[k]? = some r → r.line.stamp = row.line.stamp → k = j)
          ∧ next.update j row'.line = .ok (next.restamp (d.stamp.raise n)) := by
  have hretains := retains_of_altered (altered_of_changed hcopy)
  have hleaves : Leaves d.rows (generated d.rows row.line.stamp) := by
    intro j hj
    obtain ⟨r, hr, -⟩ := exists_source_of_mem_reachedWithin hj
    exact ⟨r, hr, hinside j hj r hr⟩
  obtain ⟨b, hb, hsource, n, hnext, j, row', hget, hstamp, hagain⟩ :=
    h.exists_stable_expand hissued hrow hretains hleaves hcomplete hbackward hfits
  have hupdate := update_of_backward hcomplete hrow hbackward hfits hb
  have happly : d.apply ⟨i, .change change⟩ = .ok { b with rows := prune b.rows } := by
    rw [apply_change hrow, hcopy]
    exact hupdate
  have hunique : ∀ k r, (prune b.rows)[k]? = some r → r.line.stamp = row.line.stamp → k = j := by
    intro k r hk hr
    exact h.eq_of_stamp_eq (fun r hr => (hissued r hr).1) happly hget hk (hr.trans hstamp.symm)
  obtain ⟨k, r, hk, hr, hformula, hstep, -⟩ :=
    h.hasCorrect_prune_expand hrow hretains hleaves hbackward hb
  obtain rfl := hunique k r hk (hr.trans hretains.stamp)
  obtain rfl : r = row' := by simpa [hk] using hget
  exact ⟨_, happly, hupdate, hsource, n, hnext, k, r, hk, hstamp, hformula, hstep, hunique, hagain⟩

def paired : Derivation where
  start := .const true
  goal := .conj (.const true) (.const false)
  rows :=
    [⟨⟨[1]⟩, .new (.const true) ⟨0⟩ .assumption true false⟩,
      ⟨⟨[2]⟩, goalLine (.const false) ⟨2⟩ ⟨1⟩⟩,
      ⟨⟨[3]⟩, { Line.new (.conj (.const true) (.const false)) ⟨1⟩
          (.ofRule (some .introAnd) .backward) true true with
        arguments := [some ⟨[1]⟩, some ⟨[2]⟩] }⟩]
  stamp := ⟨3⟩

theorem regular_paired : Regular paired where
  ordered := by
    unfold Ordered
    decide
  ne_nil := by decide
  roomy := by
    unfold Roomy
    decide
  distinct := by decide
  earlier := by
    intro i row hrow label hlabel
    rcases i with _ | _ | _ | i
    all_goals cases hrow
    . simp [Line.new] at hlabel
    . simp [goalLine, Line.new] at hlabel
    . have : label = ⟨[1]⟩ ∨ label = ⟨[2]⟩ := by simpa using hlabel
      simp [labels, paired, this]
  scope := by
    intro row hrow label hlabel
    simp only [paired, List.mem_cons, List.not_mem_nil, or_false] at hrow
    rcases hrow with rfl | rfl | rfl
    . simp [Line.new] at hlabel
    . simp [goalLine, Line.new] at hlabel
    . have : label = ⟨[1]⟩ ∨ label = ⟨[2]⟩ := by simpa using hlabel
      rcases this with rfl | rfl <;> exact .inl (by decide)
  headed := by
    intro row hrow header hin hne
    -- No label has more than one part.
    simp only [paired, List.mem_cons, List.not_mem_nil, or_false] at hrow
    rcases header with ⟨_ | ⟨x, rest⟩⟩
    . exact absurd rfl hne
    . rcases hrow with rfl | rfl | rfl <;> simp [Label.isInside, Label.isInside.go] at hin

theorem paired_and_underway_update_again :
    (Regular paired ∧ ∃ next, paired.apply ⟨2, .change (.setRule (some .introAnd))⟩ = .ok next
      ∧ ∃ n j row, next.rows[j]? = some row ∧ row.line.stamp = ⟨1⟩
        ∧ next.update j row.line = .ok (next.restamp (paired.stamp.raise n)))
    ∧ Regular underway ∧ ∃ next,
      underway.apply ⟨3, .change (.setRule (some .directProof))⟩ = .ok next
        ∧ ∃ n j row, next.rows[j]? = some row ∧ row.line.stamp = ⟨1⟩
          ∧ next.update j row.line = .ok (next.restamp (underway.stamp.raise n)) := by
  refine ⟨⟨regular_paired, ?_⟩, regular_underway, ?_⟩
  . obtain ⟨next, happly, -, -, n, -, j, row, hget, hstamp, -, -, -, hagain⟩ :=
      update_again_eq_restamp (i := 2) (.setRule (some .introAnd)) regular_paired (by decide) rfl
        rfl (by decide) (by decide) (by decide) (by decide)
    exact ⟨next, happly, n, j, row, hget, hstamp, hagain⟩
  . obtain ⟨next, happly, -, -, n, -, j, row, hget, hstamp, -, -, -, hagain⟩ :=
      update_again_eq_restamp (i := 3) (.setRule (some .directProof)) regular_underway (by decide)
        rfl rfl (by decide) (by decide) (by decide) (by decide)
    exact ⟨next, happly, n, j, row, hget, hstamp, hagain⟩

end Edit

end ProofDesk.Derivation
