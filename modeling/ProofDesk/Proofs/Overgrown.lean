import ProofDesk.Proofs.Revision

/-!
This module contains rows among which some are abandoned. Taking out a line leaves the rows of its
subproof behind; if the next line is no direct proof, they overgrow it until they are pruned.
-/

namespace ProofDesk.Derivation

def Pruned (rows : List Row) : Prop :=
  ∀ h ∈ rows, h.line.step.rule ≠ some .directProof → ∀ x ∈ rows, x.label.isInside h.label = false

namespace Overgrown

variable {live rows : List Row}

theorem mem_or_exists (h : Overgrown live rows) {row : Row} (hrow : row ∈ rows) :
    row ∈ live ∨ ∃ header ∈ live, header.line.step.rule ≠ some .directProof
      ∧ row.label.isInside header.label := by
  induction h with
  | nil => simp at hrow
  | live r _ ih =>
    cases List.mem_cons.mp hrow with
    | inl heq => exact .inl (by simp [heq])
    | inr hrow =>
      refine (ih hrow).imp (List.mem_cons_of_mem r) ?_
      rintro ⟨header, hheader, hin⟩
      exact ⟨header, List.mem_cons_of_mem r hheader, hin⟩
  | weed weed header hrule hin _ ih =>
    cases List.mem_cons.mp hrow with
    | inl heq => exact .inr ⟨header, List.mem_cons_self, hrule, heq ▸ hin⟩
    | inr hrow => exact ih hrow

theorem append {live' rows' : List Row} (h : Overgrown live rows) (h' : Overgrown live' rows') :
    Overgrown (live ++ live') (rows ++ rows') := by
  induction h with
  | nil => exact h'
  | live row _ ih => exact .live row ih
  | weed weed header hrule hin _ ih => exact .weed weed header hrule hin ih

theorem map (h : Overgrown live rows) {f : Row → Row}
    (hrule : ∀ row ∈ live, (f row).line.step.rule = row.line.step.rule)
    (hin : ∀ header ∈ live, ∀ weed : Row, weed.label.isInside header.label →
      (f weed).label.isInside (f header).label) :
    Overgrown (live.map f) (rows.map f) := by
  induction h with
  | nil => exact .nil
  | live row _ ih =>
    simp only [List.mem_cons, forall_eq_or_imp] at hrule hin
    exact .live (f row) (ih hrule.2 hin.2)
  | weed weed header hheader hweed _ ih =>
    refine .weed (f weed) (f header) ?_ ?_ (ih hrule hin)
    . rwa [hrule header List.mem_cons_self]
    . exact hin header List.mem_cons_self weed hweed

section Clash

variable (hover : Overgrown live rows) (hpruned : Pruned live)
include hover hpruned

theorem not_isInside_of_not_inUse {label : Label}
    (hlabel : ∀ h ∈ live, h.line.step.rule ≠ some .directProof → label.isInside h.label = false)
    (huse : inUse rows label = false) : ∀ x ∈ live, x.label.isInside label = false := by
  intro x hx
  rw [inUse, Bool.and_eq_false_iff] at huse
  cases huse with
  | inl hnone =>
    rw [List.any_eq_false] at hnone
    simpa using hnone x (hover.subset hx)
  | inr hsome =>
    rw [List.all_eq_false] at hsome
    obtain ⟨r, hr, hrule⟩ := hsome
    simp only [Bool.or_eq_true, bne_iff_ne, beq_iff_eq, not_or, not_not] at hrule
    obtain ⟨rfl, hrule⟩ := hrule
    cases hover.mem_or_exists hr with
    | inl hr => exact hpruned r hr hrule x hx
    | inr hheader =>
      obtain ⟨header, hheader, hrule', hin⟩ := hheader
      simp [hlabel header hheader hrule'] at hin

theorem not_isInside_or_of_clashes_eq_false (hlaid : Laid live) {row : Row} (hrow : row ∈ live)
    {i : Nat} (hi : rows[i]? = some row) (hclash : clashes rows i = false) :
    (∀ x ∈ live, x.label.isInside row.label = false)
      ∨ ∀ x ∈ live, x.label.isInside (row.label.addLast 1) = false := by
  have hvalid := hlaid.valid row hrow
  have hnext : row.label.moveLast 1 = row.label.addLast 1 :=
    Label.moveLast_one fun n hn => Label.lt_maxPart_iff.mpr (hvalid.2 n hn).2
  have houter : ∀ h ∈ live, h.line.step.rule ≠ some .directProof →
      row.label.isInside h.label = false := fun h hh hrule => hpruned h hh hrule row hrow
  have habandoned : abandoned rows row.label = false := by
    rw [abandoned, List.any_eq_false]
    intro r hr hin
    simp only [Bool.and_eq_true, bne_iff_ne, ne_eq] at hin
    cases hover.mem_or_exists hr with
    | inl hr => simp [houter r hr hin.1] at hin
    | inr hheader =>
      obtain ⟨header, hheader, hrule, hin'⟩ := hheader
      have := Label.isInside_trans hin.2 hin'
      simp [houter header hheader hrule] at this
  simp only [clashes, hi, hnext, habandoned, Option.any_some, Bool.not_false, Bool.true_and,
    Bool.and_eq_false_iff] at hclash
  refine hclash.imp (hover.not_isInside_of_not_inUse hpruned houter)
    (hover.not_isInside_of_not_inUse hpruned ?_)
  intro h hh hrule
  rw [← Bool.not_eq_true, Label.isInside_addLast_iff hvalid.1, Bool.not_eq_true]
  exact houter h hh hrule

end Clash

end Overgrown

def Weeds (live weeds : List Row) : Prop :=
  ∀ weed ∈ weeds, ∃ header, live.head? = some header
    ∧ header.line.step.rule ≠ some .directProof ∧ weed.label.isInside header.label

theorem Overgrown.weeds {live weeds rows : List Row} (h : Overgrown live rows)
    (hweeds : Weeds live weeds) : Overgrown live (weeds ++ rows) := by
  induction weeds with
  | nil => exact h
  | cons weed weeds ih =>
    have ih := ih fun w hw => hweeds w (List.mem_cons_of_mem _ hw)
    obtain ⟨header, hheader, hrule, hin⟩ := hweeds weed List.mem_cons_self
    obtain ⟨rest, rfl⟩ := List.head?_eq_some_iff.mp hheader
    exact .weed weed header hrule hin ih

theorem Overgrown.exists_split {live before after : List Row} {pin : Row}
    (h : Overgrown live (before ++ pin :: after))
    (hpin : ∀ h ∈ live, h.line.step.rule ≠ some .directProof →
      pin.label.isInside h.label = false) :
    ∃ live₁ live₂ before₁ weeds, live = live₁ ++ pin :: live₂ ∧ before = before₁ ++ weeds
      ∧ Overgrown live₁ before₁ ∧ Weeds (pin :: live₂) weeds ∧ Overgrown live₂ after := by
  generalize hrows : before ++ pin :: after = rows at h
  induction h generalizing before with
  | nil => simp at hrows
  | @live row live rows h ih =>
    simp only [List.mem_cons, forall_eq_or_imp] at hpin
    cases before with
    | nil =>
      obtain ⟨rfl, rfl⟩ := List.cons_eq_cons.mp hrows
      exact ⟨[], live, [], [], rfl, rfl, .nil, by simp [Weeds], h⟩
    | cons b before =>
      obtain ⟨rfl, hrest⟩ := List.cons_eq_cons.mp hrows
      obtain ⟨live₁, live₂, before₁, weeds, rfl, rfl, hlive, hweeds, hafter⟩ := ih hpin.2 hrest
      exact ⟨b :: live₁, live₂, b :: before₁, weeds, rfl, rfl, .live b hlive, hweeds, hafter⟩
  | @weed weed header live rows hrule hin h ih =>
    cases before with
    | nil =>
      obtain ⟨rfl, -⟩ := List.cons_eq_cons.mp hrows
      simp [hpin header List.mem_cons_self hrule] at hin
    | cons b before =>
      obtain ⟨rfl, hrest⟩ := List.cons_eq_cons.mp hrows
      obtain ⟨live₁, live₂, before₁, weeds, hlive', rfl, hlive, hweeds, hafter⟩ := ih hpin hrest
      cases live₁ with
      | nil =>
        obtain ⟨rfl, rfl⟩ := List.cons_eq_cons.mp hlive'
        cases hlive
        refine ⟨[], live, [], b :: weeds, rfl, rfl, .nil, ?_, hafter⟩
        intro w hw
        cases List.mem_cons.mp hw with
        | inl hw => exact ⟨header, rfl, hrule, hw ▸ hin⟩
        | inr hw => exact hweeds w hw
      | cons r live₁ =>
        obtain ⟨rfl, rfl⟩ := List.cons_eq_cons.mp hlive'
        exact ⟨header :: live₁, live₂, b :: before₁, weeds, rfl, rfl,
          .weed b header hrule hin hlive, hweeds, hafter⟩

section Prune

variable {faithful : Prop} {live rows : List Row}

theorem pruned_of_isChain (hordered : Ordered rows) (hchain : rows.IsChain Closes) :
    Pruned rows := by
  intro h hh hrule x hx
  rw [← Bool.not_eq_true]
  intro hin
  obtain ⟨before, after, rfl⟩ := List.append_of_mem hh
  have hxh := Label.before_of_isInside hin
  have hx : x ∈ before := by
    simp only [List.mem_append, List.mem_cons] at hx
    rcases hx with hx | rfl | hx
    . exact hx
    . simp [Label.before_irrefl] at hxh
    . simp [Label.before_asymm (hordered.before_of_mem_right hx)] at hxh
  obtain rfl | ⟨init, last, rfl⟩ := List.eq_nil_or_concat' before
  . simp at hx
  have hcloses : last.label.depth ≤ h.label.depth :=
    (List.isChain_append.mp hchain).2.2 last (by simp) h (by simp) hrule
  -- The row directly before `h` is inside it as well.
  have hlast : last.label.isInside h.label := by
    simp only [List.mem_append, List.mem_singleton] at hx
    cases hx with
    | inl hx =>
      apply Label.isInside_of_before_of_before hin
      . rw [List.append_assoc] at hordered
        exact hordered.before_of_mem_left hx
      . exact hordered.before_of_mem_left (by simp)
    | inr hx => rwa [← hx]
  have := Label.depth_lt_of_isInside hlast
  omega

theorem Overgrown.exists_eq_cons (hlaid : Laid live) (hover : Overgrown live rows)
    (hhead : rows.head? = live.head?) :
    ∃ first live' rows', live = first :: live' ∧ rows = first :: rows' ∧ Overgrown live' rows' := by
  cases hover with
  | nil => simpa using hlaid.first
  | live first h => exact ⟨first, _, _, rfl, rfl, h⟩
  | weed weed header hrule hin h =>
    have : weed = header := by simpa using hhead
    have := Label.before_of_isInside hin
    simp_all [Label.before_irrefl]

theorem Overgrown.revised_prune (hlaid : Laid live) (hover : Overgrown live rows)
    (hhead : rows.head? = live.head?) :
    Revised faithful live (prune rows) ∧ (prune rows).IsChain Closes := by
  have hdepth : ∀ row ∈ rows, 0 < row.label.depth := by
    intro row hrow
    cases hover.mem_or_exists hrow with
    | inl hrow => exact List.length_pos_iff.mpr (hlaid.valid row hrow).1
    | inr hheader =>
      obtain ⟨header, -, -, hin⟩ := hheader
      exact Nat.lt_of_le_of_lt (Nat.zero_le _) (Label.depth_lt_of_isInside hin)
  obtain ⟨first, live, rows, rfl, rfl, hrest⟩ := hover.exists_eq_cons hlaid hhead
  have hfirst : first.label.depth = 1 := by
    obtain ⟨row, hrow, hdepth, -⟩ := hlaid.first
    have : first = row := by simpa using hrow
    rw [this, hdepth]
  obtain ⟨kept, dropped, h⟩ := exists_prunedTo hfirst
    (fun row hrow => hdepth row (List.mem_cons_of_mem _ hrow)) hrest
  rw [h.eq_map]
  constructor
  . refine .tail (.single (.forget _ dropped)) (.drop _ _ (h.sublist.map _) ?_ ?_ ?_)
    . rw [List.head?_map, List.head?_map, h.head?]
    . rw [List.getLast?_map, List.getLast?_map, h.getLast?]
    . simp only [List.forall_mem_map]
      intro row hrow label hlabel
      obtain ⟨hlabel, hnot⟩ := mem_arguments_forgetAll hlabel
      obtain ⟨⟨r, hr, rfl⟩, -⟩ := hlaid.anchored row (h.sublist.subset hrow) label hlabel
      have hr' := (h.mem_or_mem r hr).resolve_right hnot
      exact ⟨forgetAll dropped r, List.mem_map_of_mem hr', label_forgetAll ..⟩
  . exact isChain_map_forgetAll h.isChain dropped

structure Yields (faithful : Prop) (origin live rows : List Row) : Prop where
  revised : Revised faithful origin live
  overgrown : Overgrown live rows
  head? : rows.head? = live.head?

theorem Yields.prune {origin : List Row} (h : Yields faithful origin live rows)
    (hlaid : Laid origin) :
    Revised faithful origin (prune rows) ∧ (prune rows).IsChain Closes := by
  obtain ⟨hrevised, hclosed⟩ := h.overgrown.revised_prune (hlaid.of_revised h.revised) h.head?
  exact ⟨h.revised.trans hrevised, hclosed⟩

end Prune

end ProofDesk.Derivation
