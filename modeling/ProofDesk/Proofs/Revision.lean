import Mathlib.Data.List.Forall2
import Mathlib.Logic.Relation
import ProofDesk.Proofs.Edit.Remove
import ProofDesk.Proofs.Hazard
import ProofDesk.Proofs.Label.Renumber

/-!
This module contains the revisions that edits are made of: forgetting citations, dropping rows,
renumbering, putting rows in, and replacing a line. Each of them says what it needs to be harmless,
so that an invariant is shown to be kept by looking at these revisions only.
-/

namespace ProofDesk.Derivation

def relabel (rename : Label → Label) (row : Row) : Row where
  label := rename row.label
  line := { row.line with arguments := row.line.arguments.map (Option.map rename) }

theorem mem_arguments_relabel {rename : Label → Label} {row : Row} {label : Label}
    (h : some label ∈ (relabel rename row).line.arguments) :
    ∃ l, some l ∈ row.line.arguments ∧ rename l = label := by
  obtain ⟨arg, harg, heq⟩ := List.mem_map.mp h
  obtain ⟨l, rfl, hl⟩ := Option.map_eq_some_iff.mp heq
  exact ⟨l, harg, hl⟩

theorem relabel_congr {f g : Label → Label} {row : Row} (hlabel : f row.label = g row.label)
    (hcited : ∀ l, some l ∈ row.line.arguments → f l = g l) : relabel f row = relabel g row := by
  have hargs : row.line.arguments.map (Option.map f) = row.line.arguments.map (Option.map g) := by
    apply List.map_congr_left
    intro arg harg
    cases arg with
    | none => rfl
    | some l => simp [hcited l harg]
  rw [relabel, relabel, hlabel, hargs]

theorem relabel_eq_self {f : Label → Label} {row : Row} (hlabel : f row.label = row.label)
    (hcited : ∀ l, some l ∈ row.line.arguments → f l = l) : relabel f row = row := by
  rw [relabel_congr (g := id) hlabel hcited]
  simp [relabel]

theorem shift_eq_relabel (pos : Label) (delta : Int) (row : Row) :
    row.shift pos delta = relabel (·.shift pos delta) row := by
  have hshift : ∀ l : Label,
      (if l.before pos then l else l.shift pos delta) = l.shift pos delta := by
    intro l
    split
    . next h => rw [Label.shift_eq_moveFrom, Label.moveFrom_of_before _ h]
    . rfl
  simp only [Row.shift, hshift]
  rfl

theorem mem_arguments_forgetAll {labels : List Label} {row : Row} {label : Label}
    (h : some label ∈ (forgetAll labels row).line.arguments) :
    some label ∈ row.line.arguments ∧ label ∉ labels := by
  rw [forgetAll_eq] at h
  obtain ⟨arg, harg, heq⟩ := List.mem_map.mp h
  rw [Option.filter_eq_some_iff] at heq
  exact ⟨heq.1 ▸ harg, by simpa using heq.2⟩

theorem forgetAll_eq_self {labels : List Label} {row : Row}
    (h : ∀ label, some label ∈ row.line.arguments → label ∉ labels) :
    forgetAll labels row = row := by
  rw [forgetAll_eq]
  have hargs : row.line.arguments.map (Option.filter fun label => !labels.contains label)
      = row.line.arguments := by
    apply map_eq_self
    intro arg harg
    cases arg with
    | none => rfl
    | some label => simp [Option.filter_some, h label harg]
  rw [hargs]

structure Laid (rows : List Row) : Prop where
  ordered : Ordered rows
  valid : ∀ row ∈ rows, row.label.Valid
  anchored : ∀ row ∈ rows, ∀ label, some label ∈ row.line.arguments →
    (∃ r ∈ rows, r.label = label)
      ∧ (label.visibleAt row.label ∨ ∃ k, label = row.label.child k)
  first : ∃ row, rows.head? = some row ∧ row.label.depth = 1 ∧ row.line.fixed = true
    ∧ row.line.editable = false ∧ row.line.source = none
  last : ∃ row, rows.getLast? = some row ∧ row.label.depth = 1 ∧ row.line.fixed = true

/--
A renaming that keeps order, scope and depth. It may put rows into a subproof only if that subproof
had none.
-/
structure Renumbers (rename : Label → Label) (rows : List Row) : Prop where
  before : ∀ a ∈ rows, ∀ b ∈ rows, a.label.before b.label →
    (rename a.label).before (rename b.label)
  visible : ∀ a ∈ rows, ∀ b ∈ rows, a.label.visibleAt b.label →
    (rename a.label).visibleAt (rename b.label)
  inside : ∀ a ∈ rows, ∀ b ∈ rows, a.label.isInside b.label →
    (rename a.label).isInside (rename b.label)
  reflects : ∀ a ∈ rows, ∀ b ∈ rows, (rename a.label).isInside (rename b.label) →
    a.label.isInside b.label ∨ ∀ c ∈ rows, c.label.isInside b.label = false
  depth : ∀ a ∈ rows, (rename a.label).depth = a.label.depth
  valid : ∀ a ∈ rows, (rename a.label).Valid

structure Inserts (before new after : List Row) : Prop where
  ordered : Ordered (before ++ new ++ after)
  valid : ∀ row ∈ new, row.label.Valid
  before_ne_nil : before ≠ []
  after_ne_nil : after ≠ []
  cited : ∀ row ∈ new, ∀ label, some label ∈ row.line.arguments →
    label.visibleAt row.label ∧ ∃ r ∈ before ++ new ++ after, r.label = label
  rule : ∀ row ∈ new, row.line.step.rule ≠ some .directProof
  idle : ∀ row ∈ new, row.line.step.direction = .backward →
    row.line.step.rule = none ∨ row.line.step.rule = some .assumption ∧ row.line.arguments = []
  assumed : ∀ row ∈ new, row.line.step.rule = some .assumption →
    2 ≤ row.label.depth ∧ ∀ h ∈ before ++ new ++ after, ∀ k, row.label = h.label.child k →
      h.line.arguments = []

def HoldGoals (rows : List Row) : List Formula → List (Option Label) → Prop
  | goal :: goals, some label :: args =>
    (∃ row ∈ rows, row.label = label ∧ row.line.formula = goal) ∧ HoldGoals rows goals args
  | _, _ => True

theorem holdGoals_of_forall₂ {rows : List Row} {goals : List Formula} {args : List (Option Label)}
    (h : List.Forall₂ (fun goal arg => ∃ row ∈ rows, arg = some row.label
      ∧ row.line.formula = goal) goals args) : HoldGoals rows goals args := by
  induction h with
  | nil => trivial
  | cons hrow _ ih =>
    obtain ⟨row, hrow, rfl, hgoal⟩ := hrow
    exact ⟨⟨row, hrow, rfl, hgoal⟩, ih⟩

structure Replaces (faithful : Prop) (rows : List Row) (row : Row) (line : Line) : Prop where
  fixed : line.fixed = row.line.fixed
  editable : row.line.editable = true
  rule : line.step.rule ≠ some .assumption
  cited : ∀ label, some label ∈ line.arguments →
    (∃ r ∈ rows, r.label = label)
      ∧ (label.visibleAt row.label ∨ ∃ k, label = row.label.child k)
  children : line.step.rule = some .directProof → (∃ p q, line.formula = .imp p q) →
    ∀ label, some label ∈ line.arguments → ∃ k, label = row.label.child k
  head : ∀ k, line.arguments.head? = some (some (row.label.child k)) →
    row.line.arguments.head? = some (some (row.label.child k))
      ∨ ∀ a ∈ rows, a.line.step.rule = some .assumption → ∀ n, a.label = row.label.child n →
        a.label = row.label.child k
  holds : Checks line → ∃ goals, line.step.reduce [line.formula] = .ok goals
    ∧ HoldGoals rows goals line.arguments
  relied : faithful → line.formula = row.line.formula
    ∨ ∀ r ∈ rows, Checks r.line → row.label ∉ leading r.line.arguments

structure Touched (a b : Row) : Prop where
  label : b.label = a.label
  formula : b.line.formula = a.line.formula
  step : b.line.step = a.line.step
  arguments : b.line.arguments = a.line.arguments
  fixed : b.line.fixed = a.line.fixed
  editable : b.line.editable = a.line.editable
  source : b.line.source = a.line.source ∨ b.line.source = none

inductive Revision (faithful : Prop) : List Row → List Row → Prop where
  | forget (rows : List Row) (labels : List Label) :
      Revision faithful rows (rows.map (forgetAll labels))
  | drop (rows kept : List Row) (hsub : kept.Sublist rows) (hhead : kept.head? = rows.head?)
      (hlast : kept.getLast? = rows.getLast?)
      (hcited : ∀ row ∈ kept, ∀ label, some label ∈ row.line.arguments →
        ∃ r ∈ kept, r.label = label) :
      Revision faithful rows kept
  | renumber (rows : List Row) (rename : Label → Label) (h : Renumbers rename rows) :
      Revision faithful rows (rows.map (relabel rename))
  | insert (before new after : List Row) (h : Inserts before new after) :
      Revision faithful (before ++ after) (before ++ new ++ after)
  | replace (before after : List Row) (row : Row) (line : Line)
      (h : Replaces faithful (before ++ row :: after) row line) :
      Revision faithful (before ++ row :: after) (before ++ ⟨row.label, line⟩ :: after)
  | touch (rows rows' : List Row) (h : List.Forall₂ Touched rows rows') :
      Revision faithful rows rows'

def Revised (faithful : Prop) : List Row → List Row → Prop :=
  Relation.ReflTransGen (Revision faithful)

namespace Laid

variable {rows : List Row}

theorem before_of_cited (h : Laid rows) {row : Row} (hrow : row ∈ rows) {label : Label}
    (hlabel : some label ∈ row.line.arguments) : label.before row.label := by
  cases (h.anchored row hrow label hlabel).2 with
  | inl hvisible => exact Label.before_of_visibleAt hvisible
  | inr hchild =>
    obtain ⟨k, rfl⟩ := hchild
    exact Label.before_of_isInside (Label.isInside_child ..)

theorem ne_nil_of_editable {before after : List Row} {row : Row}
    (h : Laid (before ++ row :: after)) (heditable : row.line.editable = true) : before ≠ [] := by
  rintro rfl
  obtain ⟨first, hfirst, -, -, hlocked, -⟩ := h.first
  have : row = first := by simpa using hfirst
  simp [this, hlocked] at heditable

theorem forget (h : Laid rows) (labels : List Label) : Laid (rows.map (forgetAll labels)) := by
  refine ⟨?_, ?_, ?_, ?_, ?_⟩
  . apply List.pairwise_map.mpr
    simp only [label_forgetAll]
    exact h.ordered
  . simp only [List.forall_mem_map, label_forgetAll]
    exact h.valid
  . simp only [List.forall_mem_map, label_forgetAll]
    intro row hrow label hlabel
    obtain ⟨⟨r, hr, hlabel'⟩, hscope⟩ :=
      h.anchored row hrow label (mem_arguments_forgetAll hlabel).1
    exact ⟨⟨forgetAll labels r, List.mem_map_of_mem hr, by rw [label_forgetAll, hlabel']⟩, hscope⟩
  . obtain ⟨row, hrow, hfirst⟩ := h.first
    refine ⟨forgetAll labels row, by simp [hrow], ?_⟩
    rwa [forgetAll_eq]
  . obtain ⟨row, hrow, hlast⟩ := h.last
    refine ⟨forgetAll labels row, by simp [hrow], ?_⟩
    rwa [forgetAll_eq]

theorem drop (h : Laid rows) {kept : List Row} (hsub : kept.Sublist rows)
    (hhead : kept.head? = rows.head?) (hlast : kept.getLast? = rows.getLast?)
    (hcited : ∀ row ∈ kept, ∀ label, some label ∈ row.line.arguments →
      ∃ r ∈ kept, r.label = label) : Laid kept where
  ordered := h.ordered.sublist hsub
  valid := fun row hrow => h.valid row (hsub.subset hrow)
  anchored := fun row hrow label hlabel =>
    ⟨hcited row hrow label hlabel, (h.anchored row (hsub.subset hrow) label hlabel).2⟩
  first := hhead ▸ h.first
  last := hlast ▸ h.last

theorem renumber (h : Laid rows) {rename : Label → Label} (hrename : Renumbers rename rows) :
    Laid (rows.map (relabel rename)) := by
  refine ⟨?_, ?_, ?_, ?_, ?_⟩
  . apply List.pairwise_map.mpr
    apply h.ordered.imp_of_mem
    exact fun ha hb hab => hrename.before _ ha _ hb hab
  . simp only [List.forall_mem_map]
    exact hrename.valid
  . simp only [List.forall_mem_map]
    intro row hrow label hlabel
    obtain ⟨l, hl, rfl⟩ := mem_arguments_relabel hlabel
    obtain ⟨⟨r, hr, rfl⟩, hscope⟩ := h.anchored row hrow l hl
    refine ⟨⟨relabel rename r, List.mem_map_of_mem hr, rfl⟩, ?_⟩
    cases hscope with
    | inl hvisible => exact .inl (hrename.visible r hr row hrow hvisible)
    | inr hchild =>
      obtain ⟨hin, hdepth⟩ := Label.exists_eq_child_iff.mp hchild
      refine .inr (Label.exists_eq_child_iff.mpr ⟨hrename.inside r hr row hrow hin, ?_⟩)
      simp only [relabel]
      rw [hrename.depth r hr, hrename.depth row hrow, hdepth]
  . obtain ⟨row, hrow, hdepth, hline⟩ := h.first
    refine ⟨relabel rename row, by simp [hrow], ?_, hline⟩
    simp only [relabel]
    rw [hrename.depth row (List.mem_of_head? hrow), hdepth]
  . obtain ⟨row, hrow, hdepth, hfixed⟩ := h.last
    refine ⟨relabel rename row, by simp [hrow], ?_, hfixed⟩
    simp only [relabel]
    rw [hrename.depth row (List.mem_of_getLast? hrow), hdepth]

theorem insert {before new after : List Row} (h : Laid (before ++ after))
    (hinserts : Inserts before new after) : Laid (before ++ new ++ after) := by
  have hsub : before ++ after ⊆ before ++ new ++ after := by
    intro row hrow
    simp only [List.mem_append] at hrow ⊢
    exact hrow.imp_left .inl
  have hmem : ∀ row ∈ before ++ new ++ after, row ∈ before ++ after ∨ row ∈ new :=
    fun row hrow => mem_of_mem_inserted hrow
  refine ⟨hinserts.ordered, ?_, ?_, ?_, ?_⟩
  . intro row hrow
    cases hmem row hrow with
    | inl hrow => exact h.valid row hrow
    | inr hrow => exact hinserts.valid row hrow
  . intro row hrow label hlabel
    cases hmem row hrow with
    | inl hrow =>
      obtain ⟨⟨r, hr, hlabel'⟩, hscope⟩ := h.anchored row hrow label hlabel
      exact ⟨⟨r, hsub hr, hlabel'⟩, hscope⟩
    | inr hrow =>
      obtain ⟨hvisible, hexists⟩ := hinserts.cited row hrow label hlabel
      exact ⟨hexists, .inl hvisible⟩
  . obtain ⟨first, rest, hbefore⟩ := List.exists_cons_of_ne_nil hinserts.before_ne_nil
    have := h.first
    simp only [hbefore, List.cons_append, List.head?_cons] at this ⊢
    exact this
  . have hafter := hinserts.after_ne_nil
    have := h.last
    rw [List.getLast?_append_of_ne_nil _ hafter] at this ⊢
    exact this

theorem replace {faithful : Prop} {before after : List Row} {row : Row} {line : Line}
    (h : Laid (before ++ row :: after))
    (hreplaces : Replaces faithful (before ++ row :: after) row line) :
    Laid (before ++ ⟨row.label, line⟩ :: after) := by
  have hlabels : (before ++ ⟨row.label, line⟩ :: after).map Row.label
      = (before ++ row :: after).map Row.label := by simp
  have hexists : ∀ label, (∃ r ∈ before ++ row :: after, r.label = label) →
      ∃ r ∈ before ++ ⟨row.label, line⟩ :: after, r.label = label := by
    intro label hlabel
    rw [← List.mem_map] at hlabel ⊢
    rwa [hlabels]
  have hmem : ∀ r ∈ before ++ ⟨row.label, line⟩ :: after,
      r ∈ before ++ row :: after ∨ r = ⟨row.label, line⟩ :=
    fun r hr => mem_of_mem_replaced row hr
  refine ⟨?_, ?_, ?_, ?_, ?_⟩
  . rw [ordered_iff_labels, hlabels, ← ordered_iff_labels]
    exact h.ordered
  . intro r hr
    rcases hmem r hr with hr | rfl
    . exact h.valid r hr
    . exact h.valid row (by simp)
  . intro r hr label hlabel
    rcases hmem r hr with hr | rfl
    . obtain ⟨hr', hscope⟩ := h.anchored r hr label hlabel
      exact ⟨hexists label hr', hscope⟩
    . obtain ⟨hr', hscope⟩ := hreplaces.cited label hlabel
      exact ⟨hexists label hr', hscope⟩
  . obtain ⟨first, hfirst, hdepth, hfixed, heditable, hsource⟩ := h.first
    cases before with
    | nil =>
      have : row = first := by simpa using hfirst
      simp [← this, hreplaces.editable] at heditable
    | cons r before => exact ⟨first, by simpa using hfirst, hdepth, hfixed, heditable, hsource⟩
  . obtain ⟨last, hlast, hdepth, hfixed⟩ := h.last
    rw [List.getLast?_append_of_ne_nil _ (by simp), List.getLast?_cons] at hlast ⊢
    cases hafter : after.getLast? with
    | none =>
      have : row = last := by simpa [hafter] using hlast
      subst this
      exact ⟨_, rfl, hdepth, by simpa [hreplaces.fixed] using hfixed⟩
    | some r => exact ⟨last, by simpa [hafter] using hlast, hdepth, hfixed⟩

theorem touch {rows' : List Row} (h : Laid rows) (htouched : List.Forall₂ Touched rows rows') :
    Laid rows' := by
  have hlabels : rows'.map Row.label = rows.map Row.label := by
    have : List.Forall₂ (· = ·) (rows'.map Row.label) (rows.map Row.label) := by
      rw [List.forall₂_map_left_iff, List.forall₂_map_right_iff]
      exact (htouched.imp fun _ _ ht => ht.label).flip
    rwa [List.forall₂_eq_eq_eq] at this
  have hpair : ∀ r ∈ rows', ∃ row ∈ rows, Touched row r :=
    fun r hr => exists_left_of_forall₂ htouched hr
  refine ⟨?_, ?_, ?_, ?_, ?_⟩
  . rw [ordered_iff_labels, hlabels, ← ordered_iff_labels]
    exact h.ordered
  . intro r hr
    obtain ⟨row, hrow, ht⟩ := hpair r hr
    rw [ht.label]
    exact h.valid row hrow
  . intro r hr label hlabel
    obtain ⟨row, hrow, ht⟩ := hpair r hr
    rw [ht.arguments] at hlabel
    obtain ⟨hexists, hscope⟩ := h.anchored row hrow label hlabel
    rw [← List.mem_map, hlabels, List.mem_map, ht.label]
    exact ⟨hexists, hscope⟩
  . obtain ⟨first, hfirst, hdepth, hfixed, heditable, hsource⟩ := h.first
    cases htouched with
    | nil => simp at hfirst
    | @cons row r rows rows' ht hrest =>
      have : row = first := by simpa using hfirst
      subst this
      refine ⟨r, rfl, by rw [ht.label, hdepth], by rw [ht.fixed, hfixed],
        by rw [ht.editable, heditable], ?_⟩
      cases ht.source with
      | inl hs => rw [hs, hsource]
      | inr hs => exact hs
  . obtain ⟨last, hlast, hdepth, hfixed⟩ := h.last
    have hreverse := List.forall₂_reverse_iff.mpr htouched
    rw [List.getLast?_eq_head?_reverse] at hlast ⊢
    generalize rows.reverse = xs at *
    generalize rows'.reverse = ys at *
    cases hreverse with
    | nil => simp at hlast
    | @cons row r rows rows' ht hrest =>
      have : row = last := by simpa using hlast
      subst this
      exact ⟨r, rfl, by rw [ht.label, hdepth], by rw [ht.fixed, hfixed]⟩

theorem of_revision {faithful : Prop} {rows' : List Row} (h : Laid rows)
    (hrevision : Revision faithful rows rows') : Laid rows' := by
  cases hrevision with
  | forget _ labels => exact h.forget labels
  | drop _ _ hsub hhead hlast hcited => exact h.drop hsub hhead hlast hcited
  | renumber _ rename hrename => exact h.renumber hrename
  | insert _ _ _ hinserts => exact h.insert hinserts
  | replace _ _ _ _ hreplaces => exact h.replace hreplaces
  | touch _ _ htouched => exact h.touch htouched

theorem of_revised {faithful : Prop} {rows' : List Row} (h : Laid rows)
    (hrevised : Revised faithful rows rows') : Laid rows' := by
  induction hrevised with
  | refl => exact h
  | tail _ hrevision ih => exact ih.of_revision hrevision

end Laid

end ProofDesk.Derivation
