import ProofDesk.Proofs.Edit.Refill

/-!
This module contains a direct proof whose subproof is opened once more. What was inside of it is
gone with all citations of it, so that taking out the two lines of the new subproof changes nothing
around them.
-/

namespace ProofDesk.Derivation

section Outside

variable {header label : Label} {row : Row}

theorem closeUp_eq_forget (hlabel : label.isInside header)
    (hrow : row.label.isInside header = false)
    (hcited : ∀ l, some l ∈ row.line.arguments → l.isInside header → l.before label ∨ l = label) :
    closeUp label row = row.forget label := by
  have hsame : ∀ l : Label, l.isInside header = false ∨ l.before label →
      l.shift label (-1) = l := by
    intro l hl
    rw [Label.shift_eq_moveFrom]
    rcases hl with hl | hl
    . exact Label.moveFrom_of_not_isInside _ hlabel hl
    . exact Label.moveFrom_of_before _ hl
  rw [closeUp, shift_eq_relabel]
  apply relabel_eq_self
  . exact hsame _ (.inl hrow)
  . intro l (hl : some l ∈ (forgetAll [label] row).line.arguments)
    obtain ⟨hl, hne⟩ := mem_arguments_forgetAll hl
    apply hsame
    cases hin : l.isInside header with
    | false => exact .inl rfl
    | true => exact .inr ((hcited l hl hin).resolve_right (by simpa using hne))

theorem closeUp_eq_self (hlabel : label.isInside header) (hrow : row.label.isInside header = false)
    (hcited : ∀ l, some l ∈ row.line.arguments → l.isInside header = false) :
    closeUp label row = row := by
  rw [closeUp_eq_forget hlabel hrow fun l hl hin => by simp [hcited l hl] at hin]
  apply forget_eq_self
  intro hl
  simp [hcited label hl] at hlabel

theorem foldr_closeUp_eq_forgetAll {labels : List Label} (hlabels : ∀ l ∈ labels, l.isInside header)
    (hordered : labels.Pairwise fun a b => a.before b) (hrow : row.label.isInside header = false)
    (hcited : ∀ l, some l ∈ row.line.arguments → l.isInside header → l ∈ labels) :
    labels.foldr closeUp row = forgetAll labels row := by
  induction labels using List.reverseRecOn generalizing row with
  | nil => rfl
  | append_singleton init last ih =>
    obtain ⟨hinit, -, hlt⟩ := List.pairwise_append.mp hordered
    have hlast : closeUp last row = row.forget last := by
      apply closeUp_eq_forget (hlabels last (by simp)) hrow
      intro l hl hin
      rcases List.mem_append.mp (hcited l hl hin) with hl | hl
      . exact .inl (hlt l hl last (List.mem_singleton_self last))
      . exact .inr (List.mem_singleton.mp hl)
    rw [List.foldr_append, List.foldr_cons, List.foldr_nil, hlast,
      forgetAll_perm (List.perm_append_singleton last init)]
    have hrow' : (row.forget last).label.isInside header = false := hrow
    apply ih (fun l hl => hlabels l (List.mem_append_left _ hl)) hinit hrow'
    intro l (hl : some l ∈ (forgetAll [last] row).line.arguments) hin
    obtain ⟨hl, hne⟩ := mem_arguments_forgetAll hl
    exact (List.mem_append.mp (hcited l hl hin)).resolve_right hne

end Outside

section Opening

variable (row : Row) (premise goal : Formula) (stamp : Stamp)

def opening : List Row :=
  [⟨row.label.child 1, assumptionLine premise stamp row.line.stamp⟩,
    ⟨row.label.child 2, goalLine goal stamp.next row.line.stamp⟩]

def opened (outer after : List Row) : List Row :=
  outer ++ opening row premise goal stamp
    ++ ⟨row.label, { row.line with
      arguments := [some (row.label.child 1), some (row.label.child 2)] }⟩ :: after

variable {row premise goal stamp}

theorem getElem?_header_opened (outer after : List Row) :
    (opened row premise goal stamp outer after)[outer.length + 2]?
      =
    some ⟨row.label, { row.line with
      arguments := [some (row.label.child 1), some (row.label.child 2)] }⟩ := by
  have hlen : outer.length + 2 = (outer ++ opening row premise goal stamp).length := by
    rw [List.length_append]
    rfl
  rw [opened, hlen, getElem?_split]

theorem isInside_of_mem_opening {r : Row} (hr : r ∈ opening row premise goal stamp) :
    r.label.isInside row.label ∧ r.line.arguments = [] := by
  simp only [opening, List.mem_cons, List.not_mem_nil, or_false] at hr
  rcases hr with rfl | rfl
  . exact ⟨Label.isInside_child .., rfl⟩
  . exact ⟨Label.isInside_child .., rfl⟩

theorem source_of_mem_opening {r : Row} (hr : r ∈ opening row premise goal stamp) :
    r.line.source = some row.line.stamp ∧ stamp.number ≤ r.line.stamp.number := by
  simp only [opening, List.mem_cons, List.not_mem_nil, or_false] at hr
  rcases hr with rfl | rfl
  . exact ⟨rfl, Nat.le_refl _⟩
  . exact ⟨rfl, Nat.le_succ _⟩

theorem map_restamp_opening (hlt : row.line.stamp.number < stamp.number) (k : Nat) :
    (opening row premise goal stamp).map (Row.restamp (stamp.raise k))
      =
    opening row premise goal ⟨stamp.number + k⟩ := by
  simp [opening, Row.restamp, assumptionLine, goalLine, Line.new, Stamp.next,
    Stamp.raise_of_lt hlt, Stamp.raise_of_le (Nat.le_refl stamp.number),
    Stamp.raise_of_le (Nat.le_succ stamp.number), Nat.add_right_comm]

end Opening

theorem openSubproof_eq_opened {d : Derivation} {i : Nat} {outer after : List Row} {row : Row}
    (hremove : removeInside row.label i d.rows = (outer ++ row :: after, outer.length))
    (premise goal : Formula) :
    d.openSubproof i row.label row.line.stamp premise goal
      =
    { d with
      rows := opened row premise goal d.stamp outer after
      stamp := ⟨d.stamp.number + 2⟩ } := by
  rw [openSubproof_eq hremove, opened, List.append_assoc]
  rfl

theorem rule_forgetAll (labels : List Label) (row : Row) :
    (forgetAll labels row).line.step.rule = row.line.step.rule := by
  rw [forgetAll_eq]

structure Emptied (outer after : List Row) (row : Row) (next : Stamp) : Prop where
  label : ∀ r ∈ outer ++ after, r.label.isInside row.label = false
  cited : ∀ r ∈ outer ++ after, ∀ l, some l ∈ r.line.arguments → l.isInside row.label = false
  childless : Childless (outer ++ row :: after) row.line.stamp next

section Again

variable {outer after : List Row} {row : Row} {next : Stamp} (h : Emptied outer after row next)
include h

theorem Emptied.removeAround_eq {new : List Row}
    (hnew : ∀ r ∈ new, r.label.isInside row.label ∧ r.line.arguments = []) (line : Line) :
    ∃ arguments, removeAround (outer ++ new ++ ⟨row.label, line⟩ :: after)
        (outer.length + new.length) (List.range' outer.length new.length)
      = (outer ++ ⟨row.label, { line with arguments }⟩ :: after, outer.length) := by
  let P (n : Nat) (rows : List Row) : Prop := ∃ arguments, rows
    = outer ++ new.take n ++ ⟨row.label, { line with arguments }⟩ :: after
  have hstep : ∀ n < new.length, ∀ rows, P (n + 1) rows
      → P n (removeRow rows (outer.length + n)) := by
    rintro n hn rows ⟨arguments, rfl⟩
    have hlen : outer.length + n = (outer ++ new.take n).length := by
      rw [List.length_append, List.length_take_of_le (Nat.le_of_lt hn)]
    have hin := (hnew new[n] (List.getElem_mem hn)).1
    rw [List.take_succ_eq_append_getElem hn]
    generalize new[n] = last at hin ⊢
    have hbefore : (outer ++ new.take n).map (Row.forget last.label) = outer ++ new.take n := by
      apply map_eq_self
      intro r hr
      apply forget_eq_self
      intro hl
      rcases List.mem_append.mp hr with hr | hr
      . simp [h.cited r (List.mem_append_left _ hr) _ hl] at hin
      . simp [(hnew r (List.mem_of_mem_take hr)).2] at hl
    have hafter : after.map (closeUp last.label) = after := by
      apply map_eq_self
      intro r hr
      exact closeUp_eq_self hin (h.label r (List.mem_append_right _ hr))
        (h.cited r (List.mem_append_right _ hr))
    let row' : Row := ⟨row.label, { line with arguments }⟩
    have hlabel : (closeUp last.label row').label = row.label :=
      congrArg Prod.fst (imprint_closeUp hin (Label.isInside_irrefl _))
    refine ⟨(closeUp last.label row').line.arguments, ?_⟩
    have hsplit : outer ++ (new.take n ++ [last]) ++ row' :: after
        = (outer ++ new.take n) ++ last :: row' :: after := by simp
    rw [hlen, hsplit, removeRow_split, hbefore, List.map_cons, hafter]
    exact congrArg (fun l => outer ++ new.take n ++ ⟨l, (closeUp last.label row').line⟩ :: after)
      hlabel
  have hfull : P new.length (outer ++ new ++ ⟨row.label, line⟩ :: after) :=
    ⟨line.arguments, by rw [List.take_length]⟩
  obtain ⟨rows, hremove, arguments, rfl⟩ := exists_removeAround_range' hstep hfull
  refine ⟨arguments, ?_⟩
  rw [hremove, List.take_zero, List.append_nil]

theorem Emptied.childless_opened (arguments : List (Option Label)) :
    Childless (outer ++ ⟨row.label, { row.line with arguments }⟩ :: after) row.line.stamp next := by
  apply h.childless.of_links
  simp [link]

theorem Emptied.stamp_lt : row.line.stamp.number < next.number :=
  (h.childless row (by simp)).1

theorem Emptied.map_restamp_opened (premise goal : Formula) :
    (opened row premise goal next outer after).map (Row.restamp (next.raise 2))
      =
    opened row premise goal ⟨next.number + 2⟩ outer after := by
  have hold := (h.childless_opened
    [some (row.label.child 1), some (row.label.child 2)]).map_restamp 2
  rw [List.map_append] at hold
  obtain ⟨houter, hafter⟩ := List.append_inj hold (by simp)
  rw [opened, opened, List.map_append, List.map_append, houter, hafter,
    map_restamp_opening h.stamp_lt]

theorem Emptied.expand_opened {d : Derivation} {premise goal : Formula}
    (hreduce : row.line.step.reduce [row.line.formula] = .ok [premise, goal])
    (hrule : row.line.step.rule = some .directProof)
    (hrows : d.rows = opened row premise goal next outer after)
    (hstamp : d.stamp = ⟨next.number + 2⟩) :
    d.expand (outer.length + 2) { row.line with
        arguments := [some (row.label.child 1), some (row.label.child 2)] } row.line.stamp
      =
    .ok (d.restamp (next.raise 2)) := by
  let row' : Row := ⟨row.label, { row.line with
    arguments := [some (row.label.child 1), some (row.label.child 2)] }⟩
  have hget : d.rows[outer.length + 2]? = some row' := by
    rw [hrows, getElem?_header_opened]
  have hgenerated : generated d.rows row.line.stamp = List.range' outer.length 2 := by
    rw [hrows, opened]
    exact generated_eq_range' h.stamp_lt (fun r => source_of_mem_opening)
      fun r hr => (h.childless_opened _ r hr).2
  obtain ⟨arguments, hremove⟩ :=
    h.removeAround_eq (fun r => isInside_of_mem_opening) row'.line
  let row'' : Row := ⟨row.label, { row.line with arguments }⟩
  have hremove : removeAround d.rows (outer.length + 2) (generated d.rows row.line.stamp)
      = (outer ++ row'' :: after, outer.length) := by
    rw [hgenerated, hrows, opened]
    exact hremove
  rw [← setLine_self hget] at hremove
  rw [expand_of_directProof hremove (getElem?_split row'') hreduce hrule]
  have hinside : removeInside row''.label outer.length (outer ++ row'' :: after)
      = (outer ++ row'' :: after, outer.length) :=
    removeInside_eq_self (fun r hr => h.label r (List.mem_append_left _ hr)) _
  have hopen := openSubproof_eq_opened (d := { d with rows := outer ++ row'' :: after }) hinside
    premise goal
  have hraise : next.raise 2 d.stamp = ⟨d.stamp.number + 2⟩ := by
    apply Stamp.raise_of_le
    rw [hstamp]
    exact Nat.le_add_right ..
  refine congrArg Except.ok (hopen.trans ?_)
  rw [restamp, hrows, h.map_restamp_opened, hraise, ← hstamp]
  rfl

end Again

section Cleared

variable {outer inner after : List Row} {row : Row} {next : Stamp}
  (h : Primed (outer ++ inner) after row next)
  (houter : ∀ x ∈ outer, x.label.isInside row.label = false)
  (hinner : ∀ x ∈ inner, x.label.isInside row.label)
include h

theorem Primed.not_isInside_of_mem_after {x : Row} (hx : x ∈ row :: after) :
    x.label.isInside row.label = false := by
  rcases List.mem_cons.mp hx with rfl | hx
  . exact Label.isInside_irrefl _
  . exact h.arranged.ordered.not_isInside_of_mem_right hx

include houter

theorem Primed.mem_inner_of_cited {x : Row} (hx : x ∈ outer ++ inner ++ row :: after) {l : Label}
    (hl : some l ∈ x.line.arguments) (hin : l.isInside row.label) : l ∈ inner.map Row.label := by
  obtain ⟨r, hr, rfl, -⟩ := h.backed x hx l hl
  rcases List.mem_append.mp hr with hr | hr
  . rcases List.mem_append.mp hr with hr | hr
    . simp [houter r hr] at hin
    . exact List.mem_map_of_mem hr
  . simp [h.not_isInside_of_mem_after hr] at hin

theorem Primed.emptied :
    Emptied (outer.map (forgetAll (inner.map Row.label)))
      (after.map (forgetAll (inner.map Row.label))) (forgetAll (inner.map Row.label) row) next := by
  have hmem : ∀ x, x ∈ outer ++ row :: after → x ∈ outer ++ inner ++ row :: after := by
    intro x hx
    simp only [List.mem_append, List.mem_cons] at hx ⊢
    tauto
  have hlabel : ∀ x ∈ outer ++ row :: after, x.label.isInside row.label = false := by
    intro x hx
    exact (List.mem_append.mp hx).elim (houter x) h.not_isInside_of_mem_after
  have hcited : ∀ x ∈ outer ++ row :: after, ∀ l,
      some l ∈ (forgetAll (inner.map Row.label) x).line.arguments →
      l.isInside row.label = false := by
    intro x hx l hl
    obtain ⟨hl, hne⟩ := mem_arguments_forgetAll hl
    rw [← Bool.not_eq_true]
    exact fun hin => hne (h.mem_inner_of_cited houter (hmem x hx) hl hin)
  refine ⟨?_, ?_, ?_⟩
  . rw [← List.map_append, List.forall_mem_map]
    intro x hx
    rw [label_forgetAll, label_forgetAll]
    exact hlabel x (mem_of_mem_around hx)
  . rw [← List.map_append, List.forall_mem_map, label_forgetAll]
    exact fun x hx => hcited x (mem_of_mem_around hx)
  . rw [← List.map_cons, ← List.map_append, (Prod.mk.inj (link_forgetAll ..)).1]
    apply h.childless.of_links
    simp [Function.comp_def]

include hinner

theorem Primed.removeInside_eq :
    removeInside row.label (outer ++ inner).length (outer ++ inner ++ row :: after)
      =
    (outer.map (forgetAll (inner.map Row.label)) ++ forgetAll (inner.map Row.label) row
      :: after.map (forgetAll (inner.map Row.label)),
      (outer.map (forgetAll (inner.map Row.label))).length) := by
  have hordered : (inner.map Row.label).Pairwise fun a b => a.before b := by
    have hsub : inner.Sublist (outer ++ inner ++ row :: after) :=
      (List.sublist_append_right ..).trans (List.sublist_append_left ..)
    exact ordered_iff_labels.mp (h.arranged.ordered.sublist hsub)
  rw [Derivation.removeInside_eq hinner houter, ← List.map_cons, List.length_map]
  congr 2
  apply List.map_congr_left
  intro x hx
  apply foldr_closeUp_eq_forgetAll _ hordered (h.not_isInside_of_mem_after hx)
  . intro l hl hin
    exact h.mem_inner_of_cited houter (List.mem_append_right _ hx) hl hin
  . rw [List.forall_mem_map]
    exact hinner

theorem Primed.arranged_opened (dropped : List Label) (premise goal : Formula) (stamp : Stamp) :
    Arranged (opened (forgetAll dropped row) premise goal stamp (outer.map (forgetAll dropped))
      (after.map (forgetAll dropped))) := by
  rw [opened, opening, List.append_assoc, label_forgetAll]
  apply h.arranged.openSubproof hinner houter (map_imprint_forgetAll ..) (map_imprint_forgetAll ..)
    _ _ rfl rfl
  . rfl
  . exact rule_forgetAll dropped row

theorem Primed.prune_opened (hrule : row.line.step.rule = some .directProof)
    (dropped : List Label) (premise goal : Formula) (stamp : Stamp) :
    prune (opened (forgetAll dropped row) premise goal stamp (outer.map (forgetAll dropped))
        (after.map (forgetAll dropped)))
      =
    opened (forgetAll dropped row) premise goal stamp (outer.map (forgetAll dropped))
      (after.map (forgetAll dropped)) := by
  have harranged := h.arranged_opened houter hinner dropped premise goal stamp
  have hrule' : (forgetAll dropped row).line.step.rule = some .directProof := by
    rw [rule_forgetAll, hrule]
  generalize hrows : opened (forgetAll dropped row) premise goal stamp
    (outer.map (forgetAll dropped)) (after.map (forgetAll dropped)) = rows at harranged
  rw [opened, opening, List.append_assoc, label_forgetAll] at hrows
  have hstanding : ∀ x ∈ outer ++ inner ++ row :: after, x.label.isInside row.label = false →
      Standing rows x.label := by
    intro x hx hin
    rw [← hrows]
    apply (h.outside x hx hin).openSubproof hinner (map_imprint_forgetAll ..)
      (map_imprint_forgetAll ..) _ _ hin
    . rfl
    . exact rule_forgetAll dropped row
  have hrow := hstanding row (by simp) (Label.isInside_irrefl _)
  have hchild : ∀ k, Standing rows (row.label.child k) := by
    apply hrow.child
    refine ⟨⟨row.label, { (forgetAll dropped row).line with
      arguments := [some (row.label.child 1), some (row.label.child 2)] }⟩, ?_, rfl, hrule'⟩
    simp [← hrows]
  apply harranged.prune_eq_self
  intro y hy
  simp only [← hrows, List.mem_append, List.mem_cons, List.not_mem_nil, or_false,
    List.mem_map] at hy
  rcases hy with ⟨x, hx, rfl⟩ | (rfl | rfl) | rfl | ⟨x, hx, rfl⟩
  . rw [label_forgetAll]
    exact hstanding x (by simp [hx]) (houter x hx)
  . exact hchild 1
  . exact hchild 2
  . exact hrow
  . rw [label_forgetAll]
    exact hstanding x (by simp [hx]) (h.not_isInside_of_mem_after (List.mem_cons_of_mem _ hx))

end Cleared

theorem Primed.stable_openSubproof {d b : Derivation} {before after : List Row} {row : Row}
    {premise goal : Formula} (h : Primed before after row d.stamp)
    (hcomplete : row.line.step.isComplete = true)
    (hbackward : row.line.step.direction = .backward)
    (hfits : row.line.step.fits [row.line.formula] = true)
    (hreduce : row.line.step.reduce [row.line.formula] = .ok [premise, goal])
    (hrule : row.line.step.rule = some .directProof)
    (hb : b = { d with rows := before ++ row :: after }.openSubproof before.length row.label
      row.line.stamp premise goal) :
    ({ b with rows := prune b.rows } : Derivation).Stable d.stamp row.line.stamp := by
  obtain ⟨outer, inner, rfl, houter, hinner⟩ := h.arranged.ordered.exists_split_isInside
  have hemptied := h.emptied houter
  have hremove := h.removeInside_eq houter hinner
  have hprune := h.prune_opened houter hinner hrule (inner.map Row.label) premise goal d.stamp
  have harranged := h.arranged_opened houter hinner (inner.map Row.label) premise goal d.stamp
  have hlabel : (forgetAll (inner.map Row.label) row).label = row.label := label_forgetAll ..
  have hbare : bare (forgetAll (inner.map Row.label) row) = bare row := bare_forgetAll ..
  generalize outer.map (forgetAll _) = outer', after.map (forgetAll _) = after',
    forgetAll (inner.map Row.label) row = row' at *
  have hstamp : row'.line.stamp = row.line.stamp := congrArg (·.stamp) hbare
  have hstep : row'.line.step = row.line.step := congrArg (·.step) hbare
  have hformula : row'.line.formula = row.line.formula := congrArg (·.formula) hbare
  rw [← hstep] at hcomplete hbackward hfits hreduce hrule
  rw [← hformula] at hfits hreduce
  rw [← hlabel] at hb hremove
  rw [← hstamp] at hb ⊢
  have hopen := openSubproof_eq_opened
    (d := { d with rows := outer ++ inner ++ row :: after }) hremove premise goal
  rw [hb, hopen]
  let header : Row := ⟨row'.label, { row'.line with
    arguments := [some (row'.label.child 1), some (row'.label.child 2)] }⟩
  have hget : (prune (opened row' premise goal d.stamp outer' after'))[outer'.length + 2]?
      = some header := by
    rw [hprune, getElem?_header_opened]
  apply stable_of_expand header rfl harranged hget rfl hcomplete hbackward hfits _ rfl
  . exact hemptied.expand_opened hreduce hrule hprune rfl
  . rw [hprune, opened]
    exact (hemptied.childless_opened _).source_of_le fun r hr => (source_of_mem_opening hr).1

end ProofDesk.Derivation
