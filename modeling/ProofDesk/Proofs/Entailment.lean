import ProofDesk.Proofs.Run
import ProofDesk.Proofs.Soundness

/-!
This module contains the soundness of whole runs: after an orderly run, the lines outside of all
subproofs of a solved derivation follow from its start. The last of them is the goal unless it has
been rewritten.
-/

namespace ProofDesk.Derivation

/--
What is assumed apart from the start is assumed in a subproof. The header of a subproof cites no
other of its lines first, and direct proofs of implications cite lines of their subproofs only.
-/
structure Sheltered (start : Formula) (rows : List Row) : Prop where
  assumed : ∀ a ∈ rows, a.line.step.rule = some .assumption →
    a.line.formula = start ∨ 2 ≤ a.label.depth
  head : ∀ h ∈ rows, ∀ k, h.line.arguments.head? = some (some (h.label.child k)) →
    ∀ a ∈ rows, a.line.step.rule = some .assumption → ∀ n, a.label = h.label.child n →
      a.label = h.label.child k
  children : ∀ h ∈ rows, h.line.step.rule = some .directProof →
    (∃ p q, h.line.formula = .imp p q) →
      ∀ label, some label ∈ h.line.arguments → ∃ k, label = h.label.child k

namespace Sheltered

variable {faithful : Prop} {start : Formula} {rows : List Row}

theorem forget (h : Sheltered start rows) (labels : List Label) :
    Sheltered start (rows.map (forgetAll labels)) := by
  refine ⟨?_, ?_, ?_⟩
  . simp only [List.forall_mem_map, forgetAll_eq]
    exact h.assumed
  . simp only [List.forall_mem_map, forgetAll_eq]
    intro header hheader k hhead
    apply h.head header hheader k
    rw [List.head?_map, Option.map_eq_some_iff] at hhead
    obtain ⟨arg, harg, hfilter⟩ := hhead
    rw [harg, (Option.filter_eq_some_iff.mp hfilter).1]
  . simp only [List.forall_mem_map, label_forgetAll]
    intro header hheader hrule himp label hlabel
    apply h.children header hheader _ _ label (mem_arguments_forgetAll hlabel).1
    . rwa [forgetAll_eq] at hrule
    . rwa [forgetAll_eq] at himp

theorem drop (h : Sheltered start rows) {kept : List Row} (hsub : kept ⊆ rows) :
    Sheltered start kept where
  assumed := fun a ha => h.assumed a (hsub ha)
  head := fun header hheader k hhead a ha => h.head header (hsub hheader) k hhead a (hsub ha)
  children := fun header hheader => h.children header (hsub hheader)

theorem renumber (h : Sheltered start rows) (hlaid : Laid rows) {rename : Label → Label}
    (hrename : Renumbers rename rows) : Sheltered start (rows.map (relabel rename)) := by
  -- A header that cites into its subproof after a renumbering has done so before. Its subproof has
  -- not been empty then, so that no other rows have moved into it.
  have hchild : ∀ a ∈ rows, ∀ b ∈ rows, a.label.isInside b.label →
      ((∃ n, a.label = b.label.child n) ↔ ∃ n, rename a.label = (rename b.label).child n) := by
    intro a ha b hb hin
    rw [Label.exists_eq_child_iff, Label.exists_eq_child_iff, hrename.depth a ha,
      hrename.depth b hb]
    simp [hin, hrename.inside a ha b hb hin]
  refine ⟨?_, ?_, ?_⟩
  . simp only [List.forall_mem_map]
    intro a ha hrule
    cases h.assumed a ha hrule with
    | inl hstart => exact .inl hstart
    | inr hdepth =>
      right
      simpa only [relabel, hrename.depth a ha] using hdepth
  . simp only [List.forall_mem_map]
    intro header hheader k hhead a ha hrule n hn
    obtain ⟨l, hl, hk⟩ : ∃ l, header.line.arguments.head? = some (some l)
        ∧ rename l = (rename header.label).child k := by
      simpa [relabel, List.head?_map] using hhead
    obtain ⟨⟨r, hr, rfl⟩, hscope⟩ := hlaid.anchored header hheader l (List.mem_of_head? hl)
    cases hscope with
    | inl hvisible =>
      have := Label.not_isInside_of_visibleAt (hrename.visible r hr header hheader hvisible)
      simp [hk, Label.isInside_child] at this
    | inr hcited =>
      obtain ⟨m, hm⟩ := hcited
      have hin : a.label.isInside header.label := by
        have hin' : (rename a.label).isInside (rename header.label) :=
          (Label.exists_eq_child_iff.mp ⟨n, hn⟩).1
        cases hrename.reflects a ha header hheader hin' with
        | inl hin => exact hin
        | inr hempty =>
          have := hempty r hr
          simp [hm, Label.isInside_child] at this
      obtain ⟨n', hn'⟩ := (hchild a ha header hheader hin).mpr ⟨n, hn⟩
      have heq := h.head header hheader m (hm ▸ hl) a ha hrule n' hn'
      simp only [relabel]
      rw [← hk, hm, heq]
  . simp only [List.forall_mem_map]
    intro header hheader hrule himp label hlabel
    obtain ⟨l, hl, rfl⟩ := mem_arguments_relabel hlabel
    obtain ⟨⟨r, hr, rfl⟩, -⟩ := hlaid.anchored header hheader l hl
    have hk := h.children header hheader hrule himp r.label hl
    exact (hchild r hr header hheader (Label.exists_eq_child_iff.mp hk).1).mp hk

theorem insert {before new after : List Row} (h : Sheltered start (before ++ after))
    (hinserts : Inserts before new after) : Sheltered start (before ++ new ++ after) := by
  have hmem : ∀ row ∈ before ++ new ++ after, row ∈ before ++ after ∨ row ∈ new :=
    fun row hrow => mem_of_mem_inserted hrow
  refine ⟨?_, ?_, ?_⟩
  . intro a ha hrule
    cases hmem a ha with
    | inl ha => exact h.assumed a ha hrule
    | inr ha => exact .inr (hinserts.assumed a ha hrule).1
  . intro header hheader k hhead a ha hrule n hn
    cases hmem a ha with
    | inl ha =>
      cases hmem header hheader with
      | inl hheader => exact h.head header hheader k hhead a ha hrule n hn
      | inr hheader =>
        -- New rows cite what is visible.
        have hvisible := (hinserts.cited header hheader _ (List.mem_of_head? hhead)).1
        have := Label.not_isInside_of_visibleAt hvisible
        simp [Label.isInside_child] at this
    | inr ha =>
      have := (hinserts.assumed a ha hrule).2 header hheader n hn
      simp [this] at hhead
  . intro header hheader hrule
    cases hmem header hheader with
    | inl hheader => exact h.children header hheader hrule
    | inr hheader => exact absurd hrule (hinserts.rule header hheader)

theorem replace {before after : List Row} {row : Row} {line : Line}
    (h : Sheltered start (before ++ row :: after))
    (hreplaces : Replaces faithful (before ++ row :: after) row line) :
    Sheltered start (before ++ ⟨row.label, line⟩ :: after) := by
  have hmem : ∀ r ∈ before ++ ⟨row.label, line⟩ :: after,
      r ∈ before ++ row :: after ∨ r = ⟨row.label, line⟩ :=
    fun r hr => mem_of_mem_replaced row hr
  have hold : ∀ a ∈ before ++ ⟨row.label, line⟩ :: after,
      a.line.step.rule = some .assumption → a ∈ before ++ row :: after := by
    intro a ha hrule
    rcases hmem a ha with ha | rfl
    . exact ha
    . exact absurd hrule hreplaces.rule
  refine ⟨?_, ?_, ?_⟩
  . intro a ha hrule
    exact h.assumed a (hold a ha hrule) hrule
  . intro header hheader k hhead a ha hrule n hn
    have ha := hold a ha hrule
    rcases hmem header hheader with hheader | rfl
    . exact h.head header hheader k hhead a ha hrule n hn
    . cases hreplaces.head k hhead with
      | inl hhead => exact h.head row (by simp) k hhead a ha hrule n hn
      | inr hchildren => exact hchildren a ha hrule n hn
  . intro header hheader hrule
    rcases hmem header hheader with hheader | rfl
    . exact h.children header hheader hrule
    . exact hreplaces.children hrule

theorem touch {rows' : List Row} (h : Sheltered start rows)
    (htouched : List.Forall₂ Touched rows rows') : Sheltered start rows' := by
  have hpair : ∀ r ∈ rows', ∃ row ∈ rows, Touched row r :=
    fun r hr => exists_left_of_forall₂ htouched hr
  refine ⟨?_, ?_, ?_⟩
  . intro r hr
    obtain ⟨a, ha, ht⟩ := hpair r hr
    rw [ht.step, ht.formula, ht.label]
    exact h.assumed a ha
  . intro r hr k hhead a' ha'
    obtain ⟨header, hheader, ht⟩ := hpair r hr
    obtain ⟨a, ha, ht'⟩ := hpair a' ha'
    rw [ht.arguments, ht.label] at hhead
    rw [ht'.step, ht'.label, ht.label]
    exact h.head header hheader k hhead a ha
  . intro r hr
    obtain ⟨header, hheader, ht⟩ := hpair r hr
    rw [ht.step, ht.formula, ht.arguments, ht.label]
    exact h.children header hheader

theorem of_revised {rows' : List Row} (h : Sheltered start rows) (hlaid : Laid rows)
    (hrevised : Revised faithful rows rows') : Sheltered start rows' := by
  induction hrevised with
  | refl => exact h
  | tail hrevised hrevision ih =>
    have hlaid := hlaid.of_revised hrevised
    cases hrevision with
    | forget _ labels => exact ih.forget labels
    | drop _ _ hsub => exact ih.drop hsub.subset
    | renumber _ rename hrename => exact ih.renumber hlaid hrename
    | insert _ _ _ hinserts => exact ih.insert hinserts
    | replace _ _ _ _ hreplaces => exact ih.replace hreplaces
    | touch _ _ htouched => exact ih.touch htouched

end Sheltered

section Solved

variable {d : Derivation} {row : Row}

def Grounded (rows : List Row) (l : Label) : Prop :=
  ∀ p : Label, p.parts ≠ [] → l.isInside p →
    ∃ h ∈ rows, h.label = p ∧ h.line.step.rule = some .directProof

theorem grounded_of_depth_eq_one {rows : List Row} {l : Label} (hdepth : l.depth = 1) :
    Grounded rows l := by
  intro p hp hin
  have := Label.depth_lt_of_isInside hin
  have := List.length_pos_iff.mpr hp
  simp only [Label.depth] at *
  omega

theorem exists_parent {l : Label} (h : 2 ≤ l.depth) :
    ∃ p : Label, p.parts ≠ [] ∧ ∃ n, l = p.child n := by
  have hne : l.parts ≠ [] := by
    intro hnil
    simp [Label.depth, hnil] at h
  refine ⟨⟨l.parts.dropLast⟩, ?_, l.parts.getLast hne, ?_⟩
  . apply List.ne_nil_of_length_pos
    simp only [Label.depth] at h
    rw [List.length_dropLast]
    omega
  . apply Label.eq_of_parts
    exact (List.dropLast_append_getLast hne).symm

theorem Justified.exists_of_directProof {rows : List Row} (h : Justified rows row)
    (hrule : row.line.step.rule = some .directProof) :
    (∃ p q, row.line.formula = .imp p q)
      ∧ ∃ label, row.line.arguments.head? = some (some label) := by
  cases h with
  | forward premises hconclude hvisible hcites =>
    obtain ⟨rule, hready, -⟩ := Step.conclude_eq_ok.mp hconclude
    obtain ⟨hrule', hsupports, -⟩ := Step.ready_eq_ok.mp hready
    obtain rfl : rule = .directProof := by simpa [hrule] using hrule'.symm
    simp [Rule.supports] at hsupports
  | backward goals hreduce hcites =>
    obtain ⟨p, q, hformula, rfl⟩ := Step.reduce_directProof hreduce hrule
    refine ⟨⟨p, q, hformula⟩, ?_⟩
    generalize row.line.arguments = args at hcites
    cases hcites with
    | cons hfirst _ =>
      obtain ⟨a, -, rfl, -⟩ := hfirst
      exact ⟨a.label, rfl⟩

theorem Sheltered.head?_eq (h : Sheltered d.start d.rows) (hsolved : d.isSolved = .ok true)
    {header : Row} (hheader : header ∈ d.rows) (hdirect : header.line.step.rule = some .directProof)
    (hrow : row ∈ d.rows) (hrule : row.line.step.rule = some .assumption) {n : Nat}
    (hn : row.label = header.label.child n) :
    header.line.arguments.head? = some (some row.label) := by
  obtain ⟨himp, label, hlabel⟩ :=
    (justified_of_isSolved hsolved hheader).exists_of_directProof hdirect
  obtain ⟨k, rfl⟩ := h.children header hheader hdirect himp label (List.mem_of_head? hlabel)
  rw [h.head header hheader k hlabel row hrow hrule n hn, hlabel]

theorem Tidy.scoped (h : Tidy d) (hsheltered : Sheltered d.start d.rows)
    (hsolved : d.isSolved = .ok true) : d.Scoped (Grounded d.rows) := by
  refine ⟨h.laid.ordered, ?_, ?_, ?_, ?_, ?_⟩
  . intro row hrow _ hrule label hlabel
    obtain ⟨⟨r, hr, rfl⟩, hscope⟩ := h.laid.anchored row hrow label hlabel
    cases hscope with
    | inl hvisible => exact hvisible
    | inr hchild =>
      have := h.pruned row hrow hrule r hr
      simp [(Label.exists_eq_child_iff.mp hchild).1] at this
  . intro row hrow _ hrule
    obtain ⟨himp, -⟩ := (justified_of_isSolved hsolved hrow).exists_of_directProof hrule
    exact hsheltered.children row hrow hrule himp
  . intro row hrow hgrounded hrule
    cases hsheltered.assumed row hrow hrule with
    | inl hstart => exact .inl hstart
    | inr hdepth =>
      obtain ⟨p, hp, n, hn⟩ := exists_parent hdepth
      have hin := (Label.exists_eq_child_iff.mp ⟨n, hn⟩).1
      obtain ⟨header, hheader, rfl, hdirect⟩ := hgrounded p hp hin
      exact .inr ⟨header, hheader, hdirect, hin,
        hsheltered.head?_eq hsolved hheader hdirect hrow hrule hn⟩
  . intro l c hgrounded hvisible p hp hin
    exact hgrounded p hp (Label.isInside_of_visibleAt hvisible hin)
  . intro header hheader hdirect hgrounded k p hp hin
    cases Label.isInside_child_iff.mp hin with
    | inl heq => exact ⟨header, hheader, heq, hdirect⟩
    | inr hin => exact hgrounded p hp hin

theorem Tidy.entails_of_isSolved (h : Tidy d) (hsheltered : Sheltered d.start d.rows)
    (hsolved : d.isSolved = .ok true) (hrow : row ∈ d.rows) (hdepth : row.label.depth = 1) :
    d.start.Entails row.line.formula := by
  intro assign hstart
  apply (h.scoped hsheltered hsolved).follows hsolved row hrow (grounded_of_depth_eq_one hdepth)
  exact granted_of_depth_eq_one (fun r hr => (h.laid.valid r hr).1) hdepth hstart

end Solved

section Run

variable {d next : Derivation} {edit : Edit}

theorem start_of_replaced {i : Nat} {row : Row} {line : Line} (h : Replaced d i row line next) :
    next.start = d.start := by
  cases h with
  | stored => rfl
  | expanded _ _ _ _ hnext =>
    cases expanded_of_expand_eq_ok hnext with
    | opened => rfl
    | supplied rows j row' goals _ hrow =>
      obtain ⟨before, after, rfl, rfl⟩ := exists_split_of_getElem? hrow
      obtain ⟨new, arguments, -, -, -, heq⟩ := exists_supplyGoals_eq
        (d := { d with rows := before ++ row' :: after }) rfl row'.label line.stamp goals
      rw [heq]
  | recorded premises conclusion =>
    have h := recorded_record d i row.label line conclusion row.line.stamp
      (d.rows[i + 1]?.map (·.line.stamp))
    generalize d.record i row.label line conclusion row.line.stamp
      (d.rows[i + 1]?.map (·.line.stamp)) = result at h ⊢
    cases h with
    | rewritten => rfl
    | explained => rfl
    | inserted => rfl

theorem start_of_apply_eq_ok (happly : d.apply edit = .ok next) : next.start = d.start := by
  cases applied_of_apply_eq_ok happly with
  | toggled => rfl
  | deleted => rfl
  | changed _ _ _ _ _ _ between hbetween =>
    have : between.start = d.start := start_of_replaced (replaced_of_replaceLine_eq_ok hbetween)
    exact this

theorem sheltered_begin (start goal : Formula) (direction : Direction) :
    Sheltered start (begin start goal direction).rows := by
  refine ⟨?_, ?_, ?_⟩
  . intro a ha hrule
    simp only [begin, List.mem_cons, List.not_mem_nil, or_false] at ha
    rcases ha with rfl | rfl
    . exact .inl rfl
    . simp [Line.new, Step.unknown, Step.ofRule, Step.rule_setRule] at hrule
  . intro header hheader k hhead
    exact absurd (List.mem_of_head? hhead) (not_mem_arguments_begin hheader _)
  . intro header hheader _ _ label hlabel
    exact absurd hlabel (not_mem_arguments_begin hheader label)

/--
After an orderly run that solves the derivation, all that stands outside of subproofs follows from
the start, the last line in particular. So does the goal as long as the last line holds it.
-/
theorem entails_of_applyAll (start goal : Formula) (direction : Direction) (edits : List Edit)
    (d : Derivation) (horderly : throughout orderly (begin start goal direction) edits = true)
    (happly : (begin start goal direction).applyAll edits = .ok d)
    (hsolved : d.isSolved = .ok true) :
    (∀ row ∈ d.rows, row.label.depth = 1 → start.Entails row.line.formula)
      ∧ ∃ last, d.rows.getLast? = some last ∧ start.Entails last.line.formula
        ∧ (last.line.formula = goal → start.Entails goal) := by
  have hinvariant : Tidy d ∧ Sheltered start d.rows ∧ d.start = start := by
    refine Run.throughout_induction
      (motive := fun d => Tidy d ∧ Sheltered start d.rows ∧ d.start = start) ?_
      ⟨tidy_begin start goal direction, sheltered_begin start goal direction, rfl⟩ horderly happly
    intro d edit next ⟨htidy, hsheltered, hstart⟩ horderly happly
    refine ⟨htidy.of_apply_eq_ok horderly happly, ?_, ?_⟩
    . exact hsheltered.of_revised htidy.laid (htidy.revised_of_apply_eq_ok horderly happly).1
    . rw [start_of_apply_eq_ok happly, hstart]
  obtain ⟨htidy, hsheltered, rfl⟩ := hinvariant
  have houter : ∀ row ∈ d.rows, row.label.depth = 1 → d.start.Entails row.line.formula :=
    fun row hrow hdepth => htidy.entails_of_isSolved hsheltered hsolved hrow hdepth
  obtain ⟨last, hlast, hdepth, -⟩ := htidy.laid.last
  have hentails := houter last (List.mem_of_getLast? hlast) hdepth
  exact ⟨houter, last, hlast, hentails, fun hgoal => hgoal ▸ hentails⟩

theorem exists_solved_of_run (d : Derivation) (edits : List Edit) (p : Formula)
    (h : (d.applyAll edits).toOption.map
      (fun next => (next.isSolved, next.rows.getLast?.map (·.line.formula)))
      = some (.ok true, some p)) :
    ∃ next, d.applyAll edits = .ok next ∧ next.isSolved = .ok true
      ∧ next.rows.getLast?.map (·.line.formula) = some p := by
  obtain ⟨next, happly, hrun⟩ := exists_of_map_toOption_eq_some h
  obtain ⟨hsolved, hlast⟩ := Prod.mk.inj hrun
  exact ⟨next, happly, hsolved, hlast⟩

theorem subproof_entails :
    let d := begin (.const true) (.imp (.const false) (.conj (.const false) (.const false)))
      .backward
    let edits : List Edit :=
      [⟨1, .change (.setRule (some .directProof))⟩, ⟨2, .change (.setRule (some .introAnd))⟩]
    throughout orderly d edits = true
      ∧ ∃ next, d.applyAll edits = .ok next ∧ next.isSolved = .ok true
        ∧ d.start.Entails d.goal := by
  intro d edits
  have horderly : throughout orderly d edits = true := by decide +kernel
  obtain ⟨next, happly, hsolved, hgoal⟩ :=
    exists_solved_of_run d edits d.goal (by decide +kernel)
  obtain ⟨-, last, hlast, -, hentails⟩ :=
    entails_of_applyAll _ _ _ edits next horderly happly hsolved
  have hformula : last.line.formula = d.goal := by simpa [hlast] using hgoal
  exact ⟨horderly, next, happly, hsolved, hentails hformula⟩

def driftStart : Derivation :=
  begin (.const true) (.conj (.const false) (.const false)) .backward

def drift : List Edit :=
  [⟨1, .change .toggleDirection⟩,
    ⟨1, .change (.setRule (some .equivalence))⟩,
    ⟨1, .change (.setLaw (some .identity))⟩,
    ⟨1, .change (.setLeftToRight false)⟩,
    ⟨1, .change (.setLattice (some .or))⟩,
    ⟨1, .change (.setArgument 0 (some ⟨[1]⟩))⟩,
    ⟨1, .change (.setRule (some .introOr))⟩,
    ⟨1, .change .toggleDirection⟩,
    ⟨1, .change (.setSide (some .right))⟩,
    ⟨3, .change (.setRule (some .introAnd))⟩,
    ⟨3, .change (.setArgument 0 (some ⟨[2]⟩))⟩,
    ⟨3, .change (.setArgument 1 (some ⟨[2]⟩))⟩,
    ⟨3, .change (.setArgument 0 (some ⟨[1]⟩))⟩,
    ⟨3, .change (.setArgument 1 (some ⟨[1]⟩))⟩,
    ⟨2, .change (.setSide (some .left))⟩]

def mergedStart : Derivation :=
  let t : Formula := .const true
  let f : Formula := .const false
  begin (.conj (.imp f (.disj f t)) (.imp f (.conj f f))) (.imp (.disj f t) (.conj f f)) .backward

def merged : List Edit :=
  [⟨1, .change .toggleDirection⟩,
    ⟨1, .change (.setRule (some .elimAnd))⟩,
    ⟨1, .change (.setSide (some .left))⟩,
    ⟨1, .change (.setArgument 0 (some ⟨[1]⟩))⟩,
    ⟨2, .change (.setRule (some .elimAnd))⟩,
    ⟨2, .change (.setSide (some .right))⟩,
    ⟨2, .change (.setArgument 0 (some ⟨[1]⟩))⟩,
    ⟨1, .change .toggleDirection⟩,
    ⟨1, .change (.setRule (some .directProof))⟩,
    ⟨2, .change .toggleDirection⟩,
    ⟨2, .change (.setRule (some .introAnd))⟩,
    ⟨2, .change (.setArgument 0 (some ⟨[2, 1]⟩))⟩,
    ⟨2, .change (.setArgument 1 (some ⟨[2, 1]⟩))⟩,
    ⟨3, .change .toggleDirection⟩,
    ⟨3, .change (.setRule (some .introOr))⟩,
    ⟨3, .change (.setSide (some .left))⟩,
    ⟨5, .change .toggleDirection⟩,
    ⟨5, .change (.setRule (some .directProof))⟩,
    ⟨8, .change .toggleDirection⟩,
    ⟨8, .change (.setRule (some .directProof))⟩,
    ⟨4, .delete⟩,
    ⟨2, .delete⟩,
    ⟨5, .delete⟩,
    ⟨4, .change .toggleDirection⟩,
    ⟨4, .change (.setRule (some .elimAnd))⟩,
    ⟨4, .change (.setSide (some .left))⟩,
    ⟨4, .change (.setArgument 0 (some ⟨[1]⟩))⟩,
    ⟨5, .change (.setRule (some .introAnd))⟩,
    ⟨5, .change (.setArgument 0 (some ⟨[2, 1]⟩))⟩,
    ⟨5, .change (.setArgument 1 (some ⟨[2, 1]⟩))⟩,
    ⟨7, .change .toggleDirection⟩,
    ⟨7, .change (.setRule (some .introAnd))⟩,
    ⟨7, .change (.setArgument 0 (some ⟨[2, 1]⟩))⟩,
    ⟨7, .change (.setArgument 1 (some ⟨[2, 1]⟩))⟩]

/--
Neither condition can be left out: a line that has been rewritten may come last, and subproofs that
clash mix up what is assumed in them.
-/
theorem isSolved_not_entails :
    (throughout orderly driftStart drift = true
      ∧ (∃ d, driftStart.applyAll drift = .ok d ∧ d.isSolved = .ok true
        ∧ d.rows.getLast?.map (·.line.formula) = some (.conj (.const true) (.const true)))
      ∧ ¬ driftStart.start.Entails driftStart.goal)
      ∧
    (throughout (fun d edit => !d.overflows edit) mergedStart merged = true
      ∧ (∃ d, mergedStart.applyAll merged = .ok d ∧ d.isSolved = .ok true
        ∧ d.rows.getLast?.map (·.line.formula) = some mergedStart.goal)
      ∧ ¬ mergedStart.start.Entails mergedStart.goal) := by
  constructor
  . refine ⟨by decide +kernel, exists_solved_of_run _ _ _ (by decide +kernel), ?_⟩
    intro h
    simpa [driftStart, begin] using h fun _ => true
  . refine ⟨by decide +kernel, exists_solved_of_run _ _ _ (by decide +kernel), ?_⟩
    intro h
    simpa [mergedStart, begin] using h fun _ => true

end Run

end ProofDesk.Derivation
