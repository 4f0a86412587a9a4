import ProofDesk.Proofs.Citations
import ProofDesk.Proofs.Overgrown

/-!
This module contains the removal of rows from the last to the first, as a revision of the rows that
pruning will keep.
-/

namespace ProofDesk.Derivation

theorem Laid.closeUp_eq_relabel {rows : List Row} (hlaid : Laid rows) {x : Row} (hx : x ∈ rows)
    (label : Label) :
    closeUp label x = relabel (Label.moveFrom (· - 1) label) (x.forget label) :=
  hlaid.legible.backed.shift_forgetAll_eq [label] (hlaid.legible.shift_neg_one label) hx

section CloseUp

variable {faithful : Prop} {before orphans after : List Row} {row : Row}
  (hlaid : Laid (before ++ orphans ++ row :: after))
  (horphans : ∀ x ∈ orphans, x.label.isInside row.label)
  (hkept : orphans ≠ [] → ∀ x ∈ before, x.label.isInside row.label = false)
  (hclash : ∀ x ∈ before ++ after, ∀ y ∈ before ++ after, x.label.isInside row.label →
    ¬ y.label.isInside (row.label.addLast 1))

include hlaid in
theorem Laid.label_ne_of_kept {x : Row} (hx : x ∈ before ++ after) : x.label ≠ row.label := by
  apply hlaid.ordered.label_ne_of_mem
  simp only [List.mem_append] at hx ⊢
  exact hx.imp_left .inl

theorem mem_of_kept {x : Row} (hx : x ∈ before ++ after) :
    x ∈ before ++ orphans ++ row :: after := by
  simp only [List.mem_append, List.mem_cons] at hx ⊢
  grind

include hlaid horphans hkept in
theorem Laid.mem_kept_of_cited {x : Row} (hx : x ∈ before ++ after) {l : Label}
    (hl : some l ∈ x.line.arguments) (hne : l ≠ row.label) :
    ∃ r ∈ before ++ after, r.label = l := by
  -- A row that stays does not cite an orphan.
  obtain ⟨⟨r, hr, rfl⟩, hscope⟩ := hlaid.anchored x (mem_of_kept hx) l hl
  have hcases : r ∈ before ++ after ∨ r ∈ orphans ∨ r = row := by
    simp only [List.mem_append, List.mem_cons] at hr ⊢
    grind
  rcases hcases with hr | hr | rfl
  . exact ⟨r, hr, rfl⟩
  . have hin : x.label.isInside row.label := by
      cases hscope with
      | inl hvisible => exact Label.isInside_of_visibleAt hvisible (horphans r hr)
      | inr hchild =>
        obtain ⟨k, hk⟩ := hchild
        cases Label.isInside_child_iff.mp (hk ▸ horphans r hr) with
        | inl heq => exact absurd heq (hlaid.label_ne_of_kept hx)
        | inr hin => exact hin
    cases List.mem_append.mp hx with
    | inl hx => simp [hkept (List.ne_nil_of_mem hr) x hx] at hin
    | inr hx => simp [hlaid.ordered.not_isInside_of_mem_right hx] at hin
  . exact absurd rfl hne

include hlaid hclash in
theorem Laid.renumbers_moveFrom_pred :
    Renumbers (Label.moveFrom (· - 1) row.label)
      ((before ++ after).map (forgetAll [row.label])) := by
  refine ⟨?_, ?_, ?_, ?_, ?_, ?_⟩
  all_goals simp only [List.forall_mem_map, label_forgetAll]
  . intro a ha b hb
    exact Label.moveFrom_pred_before (hlaid.label_ne_of_kept ha) (hlaid.label_ne_of_kept hb)
      (hclash a ha b hb)
  . intro a ha b hb
    exact Label.moveFrom_pred_visibleAt (hlaid.label_ne_of_kept ha) (hlaid.label_ne_of_kept hb)
  . intro a ha b hb
    exact Label.moveFrom_isInside _ (hlaid.label_ne_of_kept hb)
  . intro a ha b hb hin
    cases Label.isInside_of_moveFrom_pred_isInside (hlaid.label_ne_of_kept ha)
      (hlaid.label_ne_of_kept hb) (hclash a ha b hb) (hclash b hb a ha) hin with
    | inl hin => exact .inl hin
    | inr hnext =>
      right
      intro c hc
      have := hclash a ha c hc hnext.1
      rw [hnext.2]
      simpa using this
  . intro a _
    exact Label.depth_moveFrom ..
  . intro a ha
    exact (hlaid.valid row (by simp)).moveFrom_pred (hlaid.valid a (mem_of_kept ha))
      (hlaid.label_ne_of_kept ha)

include hlaid in
theorem Laid.map_relabel_forget :
    ((before ++ after).map (forgetAll [row.label])).map
        (relabel (Label.moveFrom (· - 1) row.label))
      =
    before.map (Row.forget row.label) ++ after.map (closeUp row.label) := by
  rw [List.map_map]
  refine hlaid.legible.backed.map_relabel_eq [row.label] (hlaid.legible.shift_neg_one row.label)
    ?_ ?_
  . intro x hx
    have hmem : x ∈ before ++ orphans := List.mem_append_left _ hx
    exact ⟨List.mem_append_left _ hmem, hlaid.ordered.before_of_mem_left hmem⟩
  . exact fun x hx => List.mem_append_right _ (List.mem_cons_of_mem _ hx)

include hlaid horphans hkept hclash in
theorem Laid.revised_closeUp (hbefore : before ≠ []) (hafter : after ≠ []) :
    Revised faithful (before ++ orphans ++ row :: after)
      (before.map (Row.forget row.label) ++ after.map (closeUp row.label)) := by
  have hdrop : Revision faithful ((before ++ orphans ++ row :: after).map (forgetAll [row.label]))
      ((before ++ after).map (forgetAll [row.label])) := by
    apply Revision.drop
    . apply List.Sublist.map
      apply List.Sublist.append (List.sublist_append_left ..) (List.sublist_cons_self ..)
    . obtain ⟨first, rest, rfl⟩ := List.exists_cons_of_ne_nil hbefore
      simp
    . rw [List.getLast?_map, List.getLast?_map, List.getLast?_append_of_ne_nil _ hafter,
        List.getLast?_append_of_ne_nil _ (by simp), List.getLast?_cons]
      cases hlast : after.getLast? with
      | none => exact absurd (List.getLast?_eq_none_iff.mp hlast) hafter
      | some r => rfl
    . simp only [List.forall_mem_map]
      intro x hx l hl
      obtain ⟨hl, hne⟩ := mem_arguments_forgetAll hl
      obtain ⟨r, hr, hrl⟩ := hlaid.mem_kept_of_cited horphans hkept hx hl (by simpa using hne)
      exact ⟨forgetAll [row.label] r, List.mem_map_of_mem hr, by rw [label_forgetAll, hrl]⟩
  have hrenumber : Revision faithful _ _ := .renumber _ _ (hlaid.renumbers_moveFrom_pred hclash)
  rw [hlaid.map_relabel_forget] at hrenumber
  exact .tail (.tail (.single (.forget _ [row.label])) hdrop) hrenumber

include hlaid hclash in
theorem Laid.pruned_closeUp (hpruned : Pruned (before ++ orphans ++ row :: after))
    (hnext : ∀ h ∈ before ++ after, h.line.step.rule ≠ some .directProof →
      h.label = row.label.addLast 1 → ∀ x ∈ before ++ after, x.label.isInside row.label = false) :
    Pruned (before.map (Row.forget row.label) ++ after.map (closeUp row.label)) := by
  rw [← hlaid.map_relabel_forget]
  unfold Pruned
  simp only [List.forall_mem_map]
  intro h hh hrule x hx
  rw [← Bool.not_eq_true]
  intro hin
  simp only [relabel, label_forgetAll] at hin
  have hrule' : h.line.step.rule ≠ some .directProof := hrule
  cases Label.isInside_of_moveFrom_pred_isInside (hlaid.label_ne_of_kept hx)
    (hlaid.label_ne_of_kept hh) (hclash x hx h hh) (hclash h hh x hx) hin with
  | inl hin => simp [hpruned h (mem_of_kept hh) hrule' x (mem_of_kept hx)] at hin
  | inr hin => simp [hnext h hh hrule' hin.2 x hx] at hin

end CloseUp

/--
Rows while some of them are taken out, from the last to the first. Those before `bound` are settled,
or weeds of what comes after.
-/
structure Clearing (faithful : Prop) (origin rows settled live : List Row) (bound : Nat) :
    Prop where
  split : ∃ weeds rest, rows = settled ++ weeds ++ rest ∧ bound ≤ (settled ++ weeds).length
    ∧ Weeds live weeds ∧ Overgrown live rest
  ne_nil : settled ≠ []
  revised : Revised faithful origin (settled ++ live)
  pruned : Pruned (settled ++ live)

theorem Clearing.overgrown {faithful : Prop} {origin rows settled live : List Row} {bound : Nat}
    (h : Clearing faithful origin rows settled live bound) : Overgrown (settled ++ live) rows := by
  obtain ⟨weeds, rest, rfl, -, hweeds, hover⟩ := h.split
  rw [List.append_assoc]
  exact (Overgrown.refl settled).append (hover.weeds hweeds)

theorem Overgrown.map_closeUp {before live rows : List Row} {row : Row}
    (h : Overgrown live rows) (hordered : Ordered (before ++ row :: live)) :
    Overgrown (live.map (closeUp row.label)) (rows.map (closeUp row.label)) := by
  apply h.map
  . intro x _
    rfl
  . intro header hheader weed hin
    have hne := hordered.label_ne_of_mem (List.mem_append_right before hheader)
    simp only [closeUp, Row.shift, Row.forget, Label.shift_eq_moveFrom]
    exact Label.moveFrom_isInside _ hne hin

section Settled

variable {faithful : Prop} {origin rows before after live : List Row} {row : Row} {bound : Nat}

theorem head?_eq_of_label_eq (hordered : Ordered (before ++ row :: after))
    (hpruned : Pruned (before ++ row :: after)) (hvalid : row.label.parts ≠ []) {c : Row}
    (hc : c ∈ before ++ after) (hrule : c.line.step.rule ≠ some .directProof)
    (hlabel : c.label = row.label.addLast 1) : after.head? = some c := by
  -- A line after `row` that is no direct proof takes over the rows inside `row` as weeds.
  have hnext : row.label.before c.label := by
    have := Label.addLast_before_addLast hvalid (Nat.zero_lt_one)
    rwa [Label.addLast_zero, ← hlabel] at this
  have hafter : c ∈ after := by
    cases List.mem_append.mp hc with
    | inl hc => simpa [Label.before_asymm hnext] using hordered.before_of_mem_left hc
    | inr hc => exact hc
  obtain ⟨between, rest, rfl⟩ := List.append_of_mem hafter
  have hnil : between = [] := by
    rw [List.eq_nil_iff_forall_not_mem]
    intro x hx
    have hrowx := hordered.before_of_mem_right (List.mem_append_left (c :: rest) hx)
    have hxc : x.label.before c.label := by
      rw [← List.cons_append, ← List.append_assoc] at hordered
      exact hordered.before_of_mem_left (by simp [hx])
    have hin := Label.isInside_addLast_of_between hrowx (hlabel ▸ hxc)
    have := hpruned c (by simp) hrule x (by simp [hx])
    simp [hlabel, hin] at this
  simp [hnil]

theorem label_closeUp_next {c : Row} (hvalid : ∀ n ∈ c.label.parts, n < Label.maxPart)
    (hlabel : c.label = row.label.addLast 1) : (closeUp row.label c).label = row.label := by
  simp only [closeUp, Row.shift, Row.forget]
  rw [Label.shift_neg_one fun n hn => Nat.le_of_lt (hvalid n hn), hlabel,
    Label.moveFrom_pred_addLast_one]

theorem outer_ne_nil {outer inner : List Row} (hlaid : Laid (outer ++ inner ++ row :: after))
    (hne : outer ++ inner ≠ []) (hinner : ∀ x ∈ inner, x.label.isInside row.label) :
    outer ≠ [] := by
  rintro rfl
  obtain ⟨first, rest, rfl⟩ := List.exists_cons_of_ne_nil hne
  obtain ⟨first', hfirst, hdepth, -⟩ := hlaid.first
  have : first = first' := by simpa using hfirst
  subst this
  have hlt := Label.depth_lt_of_isInside (hinner first List.mem_cons_self)
  have hnil : row.label.parts = [] := by
    apply List.length_eq_zero_iff.mp
    change row.label.depth = 0
    omega
  exact (hlaid.valid row (by simp)).1 hnil

section Removed

variable {rest : List Row} (hlaid : Laid (before ++ row :: live))
  (hpruned : Pruned (before ++ row :: live))
  (hrevised : Revised faithful origin (before ++ row :: live)) (hrest : Overgrown live rest)
  (hbefore : before ≠ []) (hlive : live ≠ [])
include hlaid hpruned hrevised hrest hbefore hlive

theorem exists_clearing_of_next {next : Row} (hnext : next ∈ before ++ live)
    (hrule : next.line.step.rule ≠ some .directProof)
    (hlabel : next.label = row.label.addLast 1) :
    ∃ settled, Clearing faithful origin
      (before.map (Row.forget row.label) ++ rest.map (closeUp row.label)) settled
      (live.map (closeUp row.label)) before.length := by
  have hrest := hrest.map_closeUp hlaid.ordered
  have hhead := head?_eq_of_label_eq hlaid.ordered hpruned (hlaid.valid row (by simp)).1 hnext
    hrule hlabel
  have hvalid := hlaid.valid next (by simp [List.mem_of_head? hhead])
  obtain ⟨outer, inner, rfl, houter, hinner⟩ := hlaid.ordered.exists_split_isInside
  have houtside : ∀ x ∈ outer ++ live, x.label.isInside row.label = false := by
    intro x hx
    cases List.mem_append.mp hx with
    | inl hx => exact houter x hx
    | inr hx => exact hlaid.ordered.not_isInside_of_mem_right hx
  have hclash : ∀ x ∈ outer ++ live, ∀ y ∈ outer ++ live, x.label.isInside row.label →
      ¬ y.label.isInside (row.label.addLast 1) := by
    intro x hx y _ hin
    simp [houtside x hx] at hin
  have hne := outer_ne_nil hlaid hbefore hinner
  refine ⟨outer.map (Row.forget row.label), ⟨?_, by simpa using hne, ?_, ?_⟩⟩
  . refine ⟨inner.map (Row.forget row.label), rest.map (closeUp row.label), by simp, by simp, ?_,
      hrest⟩
    intro weed hweed
    obtain ⟨x, hx, rfl⟩ := List.mem_map.mp hweed
    refine ⟨closeUp row.label next, by simp [hhead], hrule, ?_⟩
    rw [label_closeUp_next (fun n hn => Label.lt_maxPart_iff.mpr (hvalid.2 n hn).2) hlabel]
    exact hinner x hx
  . exact hrevised.trans
      (hlaid.revised_closeUp hinner (fun _ => houter) hclash hne hlive)
  . exact hlaid.pruned_closeUp hclash hpruned fun _ _ _ _ => houtside

theorem clearing_of_not_next
    (hnext : ∀ h ∈ before ++ live, h.line.step.rule ≠ some .directProof →
      h.label ≠ row.label.addLast 1)
    (hapart : (∀ x ∈ before ++ row :: live, x.label.isInside row.label = false)
      ∨ ∀ x ∈ before ++ row :: live, x.label.isInside (row.label.addLast 1) = false) :
    Clearing faithful origin
      (before.map (Row.forget row.label) ++ rest.map (closeUp row.label))
      (before.map (Row.forget row.label)) (live.map (closeUp row.label)) before.length := by
  have hrest := hrest.map_closeUp hlaid.ordered
  have hsub : before ++ live ⊆ before ++ row :: live := by simp
  have hclash : ∀ x ∈ before ++ live, ∀ y ∈ before ++ live, x.label.isInside row.label →
      ¬ y.label.isInside (row.label.addLast 1) := by
    intro x hx y hy hin
    cases hapart with
    | inl hnone => simp [hnone x (hsub hx)] at hin
    | inr hnone => simp [hnone y (hsub hy)]
  rw [← List.append_nil before] at hlaid hpruned hrevised
  refine ⟨?_, by simpa using hbefore, ?_, ?_⟩
  . exact ⟨[], rest.map (closeUp row.label), by simp, by simp, by simp [Weeds], hrest⟩
  . exact hrevised.trans (hlaid.revised_closeUp (by simp) (by simp) hclash hbefore hlive)
  . exact hlaid.pruned_closeUp hclash hpruned fun h hh hrule hlabel =>
      absurd hlabel (hnext h hh hrule)

end Removed

theorem Clearing.removeRow_settled
    (h : Clearing faithful origin rows (before ++ row :: after) live bound) (hlaid : Laid origin)
    (hclash : clashes rows before.length = false) (hbefore : before ≠ [])
    (hlive : after ++ live ≠ []) :
    ∃ settled, Clearing faithful origin (removeRow rows before.length) settled
      ((after ++ live).map (closeUp row.label)) before.length := by
  have hover := h.overgrown
  have hpruned := h.pruned
  have hrevised := h.revised
  have hlaid := hlaid.of_revised hrevised
  obtain ⟨weeds, rest, rfl, -, hweeds, hrest⟩ := h.split
  have hrest := (Overgrown.refl after).append (hrest.weeds hweeds)
  simp only [List.append_assoc, List.cons_append] at hover hpruned hlaid hrevised hclash ⊢
  generalize after ++ live = live at *
  generalize after ++ (weeds ++ rest) = rest at *
  rw [removeRow_split]
  by_cases hnext : ∃ next ∈ before ++ live, next.line.step.rule ≠ some .directProof
    ∧ next.label = row.label.addLast 1
  . obtain ⟨next, hnext, hrule, hlabel⟩ := hnext
    exact exists_clearing_of_next hlaid hpruned hrevised hrest hbefore hlive hnext hrule hlabel
  . have hapart := hover.not_isInside_or_of_clashes_eq_false hpruned hlaid (by simp)
      (getElem?_split row) hclash
    refine ⟨_, clearing_of_not_next hlaid hpruned hrevised hrest hbefore hlive ?_ hapart⟩
    exact fun h hh hrule hlabel => hnext ⟨h, hh, hrule, hlabel⟩

end Settled

theorem forget_eq_self {row : Row} {label : Label} (h : some label ∉ row.line.arguments) :
    row.forget label = row := by
  change forgetAll [label] row = row
  apply forgetAll_eq_self
  intro l hl hmem
  exact h (List.mem_singleton.mp hmem ▸ hl)

section Weed

variable {live rows : List Row} (hlaid : Laid live) (hpruned : Pruned live) {header : Row}
  (hheader : header ∈ live) (hrule : header.line.step.rule ≠ some .directProof) {label : Label}
  (hin : label.isInside header.label)
include hlaid hpruned hheader hrule hin

theorem Laid.forget_eq_self_of_weed {row : Row} (hrow : row ∈ live) : row.forget label = row := by
  apply forget_eq_self
  intro hcited
  obtain ⟨⟨r, hr, rfl⟩, -⟩ := hlaid.anchored row hrow label hcited
  simp [hpruned header hheader hrule r hr] at hin

theorem Laid.closeUp_eq_self_of_weed {row : Row} (hrow : row ∈ live) : closeUp label row = row := by
  have hfixed : ∀ r ∈ live, Label.moveFrom (· - 1) label r.label = r.label :=
    fun r hr => Label.moveFrom_of_not_isInside _ hin (hpruned header hheader hrule r hr)
  rw [hlaid.closeUp_eq_relabel hrow,
    hlaid.forget_eq_self_of_weed hpruned hheader hrule hin hrow]
  apply relabel_eq_self
  . exact hfixed row hrow
  . intro l hl
    obtain ⟨⟨r, hr, rfl⟩, -⟩ := hlaid.anchored row hrow l hl
    exact hfixed r hr

theorem Laid.map_forget_eq_self {settled : List Row} (hsub : settled ⊆ live) :
    settled.map (Row.forget label) = settled := by
  apply map_eq_self
  intro row hrow
  exact hlaid.forget_eq_self_of_weed hpruned hheader hrule hin (hsub hrow)

theorem Laid.overgrown_map_forget {kept : List Row} (hsub : kept ⊆ live)
    (hover : Overgrown kept rows) : Overgrown kept (rows.map (Row.forget label)) := by
  rw [← hlaid.map_forget_eq_self hpruned hheader hrule hin hsub]
  apply hover.map
  . intro row _
    rfl
  . intro h _ weed hweed
    exact hweed

theorem Laid.overgrown_map_closeUp {kept : List Row} (hsub : kept ⊆ live)
    (hover : Overgrown kept rows) : Overgrown kept (rows.map (closeUp label)) := by
  have hself : kept.map (closeUp label) = kept := by
    apply map_eq_self
    intro row hrow
    exact hlaid.closeUp_eq_self_of_weed hpruned hheader hrule hin (hsub hrow)
  rw [← hself]
  apply hover.map
  . intro row _
    rfl
  . intro h hh weed hweed
    simp only [closeUp, Row.shift, Row.forget, Label.shift_eq_moveFrom]
    apply Label.moveFrom_isInside _ _ hweed
    rintro rfl
    simp [hpruned header hheader hrule h (hsub hh)] at hin

end Weed

section Step

variable {faithful : Prop} {origin rows settled live : List Row} {bound j : Nat} {row : Row}
  (h : Clearing faithful origin rows settled live bound) (hlaid : Laid origin)
include h hlaid

theorem Clearing.removeRow_weed (hrow : rows[j]? = some row) (hsettled : settled.length ≤ j)
    (hbound : j < bound) :
    Clearing faithful origin (removeRow rows j) settled live j
      ∧ ∀ x ∈ live, closeUp row.label x = x := by
  have hlaid := hlaid.of_revised h.revised
  have hpruned := h.pruned
  obtain ⟨weeds, rest, rfl, hlen, hweeds, hrest⟩ := h.split
  have hweed : weeds[j - settled.length]? = some row := by
    rw [List.append_assoc, List.getElem?_append_right hsettled, List.getElem?_append_left] at hrow
    . exact hrow
    . simp at hlen
      omega
  obtain ⟨weeds₁, weeds₂, rfl, hj⟩ := exists_split_of_getElem? hweed
  obtain ⟨header, hhead, hrule, hin⟩ := hweeds row (by simp)
  have hheader : header ∈ settled ++ live := List.mem_append_right _ (List.mem_of_head? hhead)
  have hover : Overgrown live (weeds₂ ++ rest) := hrest.weeds fun w hw => hweeds w (by simp [hw])
  have hj : j = (settled ++ weeds₁).length := by
    rw [List.length_append]
    omega
  have hsplit : settled ++ (weeds₁ ++ row :: weeds₂) ++ rest
      = (settled ++ weeds₁) ++ row :: (weeds₂ ++ rest) := by simp
  refine ⟨⟨?_, h.ne_nil, h.revised, hpruned⟩, ?_⟩
  . refine ⟨weeds₁.map (Row.forget row.label), (weeds₂ ++ rest).map (closeUp row.label), ?_, ?_,
      ?_, ?_⟩
    . rw [hsplit, hj, removeRow_split, List.map_append,
        hlaid.map_forget_eq_self hpruned hheader hrule hin (List.subset_append_left ..)]
    . simp [hj]
    . intro weed hweed
      obtain ⟨w, hw, rfl⟩ := List.mem_map.mp hweed
      exact hweeds w (by simp [hw])
    . exact hlaid.overgrown_map_closeUp hpruned hheader hrule hin (List.subset_append_right ..)
        hover
  . intro x hx
    exact hlaid.closeUp_eq_self_of_weed hpruned hheader hrule hin (List.mem_append_right _ hx)

theorem Clearing.removeRow (hrow : rows[j]? = some row) (hbound : j < bound) (hj : 0 < j)
    (hlive : live ≠ []) (hclash : clashes rows j = false) :
    ∃ settled' live', Clearing faithful origin (removeRow rows j) settled' live' j
      ∧ ∀ x ∈ live, closeUp row.label x ∈ live' := by
  rcases Nat.lt_or_ge j settled.length with hlt | hge
  . have hrow' : settled[j]? = some row := by
      obtain ⟨weeds, rest, rfl, -⟩ := h.split
      rwa [List.append_assoc, List.getElem?_append_left hlt] at hrow
    obtain ⟨before, after, rfl, rfl⟩ := exists_split_of_getElem? hrow'
    obtain ⟨settled', hsettled⟩ := h.removeRow_settled hlaid hclash
      (List.ne_nil_of_length_pos hj) (by simp [hlive])
    refine ⟨settled', _, hsettled, ?_⟩
    intro x hx
    exact List.mem_map_of_mem (List.mem_append_right _ hx)
  . obtain ⟨hcleared, hself⟩ := h.removeRow_weed hlaid hrow hge hbound
    refine ⟨settled, live, hcleared, ?_⟩
    intro x hx
    rwa [hself x hx]

end Step

theorem getElem?_removeRow {rows : List Row} {i j : Nat} {row pin : Row}
    (hrow : rows[j]? = some row) (hpin : rows[i]? = some pin) (hlt : j < i) :
    (removeRow rows j)[i - 1]? = some (closeUp row.label pin) := by
  obtain ⟨before, after, rfl, rfl⟩ := exists_split_of_getElem? hrow
  rw [removeRow_split, List.getElem?_append_right (by simp; omega), List.getElem?_map]
  rw [List.getElem?_append_right (by omega), List.getElem?_cons, if_neg (by omega)] at hpin
  rw [List.length_map, Nat.sub_right_comm, hpin]
  rfl

theorem closeUp_eq_of_arguments_eq_nil {row : Row} (h : row.line.arguments = []) (label : Label) :
    closeUp label row = ⟨row.label.shift label (-1), row.line⟩ := by
  simp only [closeUp, Row.forget, Row.shift, h, List.map_nil]
  rw [← h]

section Around

variable {faithful : Prop} {origin rows settled live : List Row} {i : Nat} {pin : Row}

theorem Clearing.removeAround (h : Clearing faithful origin rows settled live i)
    (hlaid : Laid origin) (hpin : rows[i]? = some pin) (hmem : pin ∈ live)
    (hargs : pin.line.arguments = []) {doomed : List Nat} (hsorted : doomed.Pairwise (· < ·))
    (hdoomed : ∀ j ∈ doomed, 0 < j ∧ j < i) (hclash : clashesAround rows i doomed = false) :
    ∃ settled' live' pin',
      Clearing faithful origin (removeAround rows i doomed).1 settled' live' (doomed.headD i)
        ∧ doomed.headD i ≤ (removeAround rows i doomed).2
        ∧ (removeAround rows i doomed).1[(removeAround rows i doomed).2]? = some pin'
        ∧ pin' ∈ live' ∧ pin'.line = pin.line := by
  induction doomed with
  | nil => exact ⟨settled, live, pin, h, Nat.le_refl _, hpin, hmem, rfl⟩
  | cons j doomed ih =>
    simp only [List.mem_cons, forall_eq_or_imp] at hdoomed
    obtain ⟨hfirst, hsorted⟩ := List.pairwise_cons.mp hsorted
    simp only [clashesAround, Bool.or_eq_false_iff] at hclash
    obtain ⟨settled, live, pin', hcleared, hle, hpin', hmem, hline⟩ :=
      ih hsorted hdoomed.2 hclash.1
    rw [Derivation.removeAround, List.foldr_cons, ← Derivation.removeAround]
    have hclash := hclash.2
    generalize Derivation.removeAround rows i doomed = removed at *
    obtain ⟨rows', i'⟩ := removed
    dsimp only at *
    have hbound : j < doomed.headD i := by
      cases doomed with
      | nil => exact hdoomed.1.2
      | cons k doomed => exact hfirst k List.mem_cons_self
    have hlen := (List.getElem?_eq_some_iff.mp hpin').1
    have hrow : rows'[j]? = some (rows'[j]) := List.getElem?_eq_getElem (by omega)
    have hclash : clashes rows' j = false := by
      simpa [show j ≠ i' by omega] using hclash
    obtain ⟨settled', live', hcleared', hmem'⟩ := hcleared.removeRow hlaid hrow hbound hdoomed.1.1
      (List.ne_nil_of_mem hmem) hclash
    rw [if_neg (by omega), if_pos (by omega)]
    refine ⟨settled', live', closeUp (rows'[j]).label pin', hcleared', ?_,
      getElem?_removeRow hrow hpin' (by omega), hmem' pin' hmem, ?_⟩
    . simp only [List.headD_cons]
      omega
    . rw [closeUp_eq_of_arguments_eq_nil (by rw [hline, hargs]), hline]

end Around

theorem Clearing.yields {faithful : Prop} {origin rows settled live : List Row} {bound : Nat}
    (h : Clearing faithful origin rows settled live bound) :
    Yields faithful origin (settled ++ live) rows := by
  refine ⟨h.revised, h.overgrown, ?_⟩
  obtain ⟨weeds, rest, rfl, -⟩ := h.split
  obtain ⟨first, settled, rfl⟩ := List.exists_cons_of_ne_nil h.ne_nil
  rfl

theorem Laid.revised_delete {faithful : Prop} {rows : List Row} {i : Nat} {row : Row}
    (hlaid : Laid rows) (hpruned : Pruned rows) (hrow : rows[i]? = some row)
    (hfixed : row.line.fixed = false) (hclash : clashes rows i = false) :
    Revised faithful rows (prune (removeRow rows i))
      ∧ (prune (removeRow rows i)).IsChain Closes := by
  obtain ⟨before, after, rfl, rfl⟩ := exists_split_of_getElem? hrow
  have hbefore : before ≠ [] := by
    rintro rfl
    obtain ⟨first, hfirst, -, hfirst', -⟩ := hlaid.first
    have : row = first := by simpa using hfirst
    simp [this, hfirst'] at hfixed
  have hafter : after ≠ [] := by
    rintro rfl
    obtain ⟨last, hlast, -, hlast'⟩ := hlaid.last
    have : row = last := by simpa using hlast
    simp [this, hlast'] at hfixed
  have hstart : Clearing faithful (before ++ row :: after) (before ++ row :: after)
      (before ++ [row]) after (before.length + 1) := by
    refine ⟨⟨[], after, by simp, by simp, by simp [Weeds], Overgrown.refl _⟩, by simp, ?_, ?_⟩
    . rw [List.append_assoc]
      exact .refl
    . simpa using hpruned
  obtain ⟨settled, hcleared⟩ := hstart.removeRow_settled hlaid hclash hbefore hafter
  exact hcleared.yields.prune hlaid

end ProofDesk.Derivation
