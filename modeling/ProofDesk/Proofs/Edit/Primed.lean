import ProofDesk.Proofs.Completion

/-!
This module contains what is left around a line after the lines that were generated from it have
been taken out: citations name earlier rows, the rows outside of the subproof of the line are closed
off by direct proofs only, and no row comes from the line any more.
-/

namespace ProofDesk.Derivation

section Leaf

variable {before after : List Row} {leaf : Row} (h : Arranged (before ++ leaf :: after))
  (hroomy : Roomy (before ++ leaf :: after))
  (hleaf : ∀ x ∈ before, x.label.isInside leaf.label = false)

include h hroomy hleaf in
theorem Backed.removeRow (hbacked : Backed (before ++ leaf :: after)) :
    Backed (removeRow (before ++ leaf :: after) before.length) := by
  rw [hbacked.removeRow_eq_map h.ordered (hroomy.shift_neg_one leaf.label)]
  intro y hy label hlabel
  obtain ⟨x, hx, rfl⟩ := List.mem_map.mp hy
  obtain ⟨l, hl, rfl⟩ := mem_arguments_relabel hlabel
  obtain ⟨hl, hne⟩ := mem_arguments_forgetAll hl
  obtain ⟨r, hr, rfl, hbefore⟩ := hbacked x (mem_of_mem_around hx) l hl
  rw [List.mem_singleton] at hne
  have hr' : r ∈ before ++ after := by
    simp only [List.mem_append, List.mem_cons] at hr ⊢
    grind
  refine ⟨_, List.mem_map_of_mem hr', by simp [relabel], ?_⟩
  simp only [relabel, label_forgetAll]
  apply Label.moveFrom_pred_before hne (h.ordered.label_ne_of_mem hx) _ hbefore
  simp [not_isInside_leaf h hleaf hr]

end Leaf

def StandingOutside (rows : List Row) (here : Label) : Prop :=
  ∀ row ∈ rows, row.label.isInside here = false → Standing rows row.label

structure Tended (rows : List Row) (row : Row) (doomed : List Nat) (rows' : List Row) (j : Nat) :
    Prop extends Cleared rows row doomed rows' j where
  backed : Backed rows'
  outside : ∀ row', rows'[j]? = some row' → StandingOutside rows' row'.label

section Around

variable {rows rows' : List Row} {row : Row} {doomed : List Nat} {i j : Nat}

theorem StandingOutside.removeRow {before after : List Row} {leaf target : Row}
    (h : StandingOutside (before ++ leaf :: after) target.label)
    (harranged : Arranged (before ++ leaf :: after)) (hroomy : Roomy (before ++ leaf :: after))
    (hleaf : ∀ x ∈ before, x.label.isInside leaf.label = false)
    (htarget : target.label ≠ leaf.label) :
    StandingOutside (Derivation.removeRow (before ++ leaf :: after) before.length)
      (Label.moveFrom (· - 1) leaf.label target.label) := by
  intro y hy houtside
  obtain ⟨x, hx, heq⟩ :=
    exists_of_mem_of_map_imprint_eq (map_imprint_removeRow harranged hroomy) hy
  rw [(label_of_imprint_eq heq).1] at houtside ⊢
  have hx : x ∈ before ++ leaf :: after := mem_of_mem_around hx
  apply Enclosed.removeRow harranged hroomy (not_isInside_leaf harranged hleaf hx)
  apply h x hx
  rw [← Bool.not_eq_true] at houtside ⊢
  exact fun hin => houtside (Label.moveFrom_isInside _ htarget hin)

theorem Tended.removeRow (h : Tended rows row doomed rows' i) (hj : ∀ n ∈ doomed, j < n)
    (hne : j ≠ i) (hleaf : Leaves rows [j]) :
    Tended rows row (j :: doomed) (removeRow rows' j) (if j < i then i - 1 else i) := by
  refine ⟨h.toCleared.removeRow hj hne hleaf, ?_, ?_⟩
  . obtain ⟨before, leaf, after, rfl, rfl, hbefore⟩ := h.exists_leaf hj hleaf
    exact h.backed.removeRow h.arranged h.roomy hbefore
  . intro row' hrow'
    obtain ⟨target, htarget, -⟩ := h.target
    have houtside := h.outside target htarget
    obtain ⟨before, leaf, after, rfl, rfl, hbefore⟩ := h.exists_leaf hj hleaf
    obtain ⟨target', htarget', hlabel, -⟩ :=
      exists_getElem?_removeRow h.arranged h.roomy htarget hne
    obtain rfl : target' = row' := by simpa [htarget'] using hrow'
    rw [hlabel]
    apply houtside.removeRow h.arranged h.roomy hbefore
    intro heq
    exact hne ((h.arranged.ordered.label_eq_iff htarget (getElem?_split leaf)).mp heq).symm

theorem tended_removeAround (h : Arranged rows) (hroomy : Roomy rows) (hbacked : Backed rows)
    (hrow : rows[i]? = some row) (houtside : StandingOutside rows row.label)
    (hsorted : doomed.Pairwise (· < ·)) (hleaves : Leaves rows doomed) :
    Tended rows row doomed (removeAround rows i doomed).1 (removeAround rows i doomed).2 := by
  induction doomed with
  | nil =>
    have hstanding := houtside row (List.mem_of_getElem? hrow) (Label.isInside_irrefl _)
    have hcleared := cleared_removeAround h hroomy hrow hstanding hsorted hleaves
    refine ⟨hcleared, hbacked, ?_⟩
    intro row' (hrow' : rows[i]? = some row')
    obtain rfl : row = row' := by simpa [hrow] using hrow'
    exact houtside
  | cons j doomed ih =>
    obtain ⟨hj, hsorted⟩ := List.pairwise_cons.mp hsorted
    have ih := ih hsorted fun n hn => hleaves n (List.mem_cons_of_mem _ hn)
    rw [removeAround, List.foldr_cons, ← removeAround]
    generalize removeAround rows i doomed = removed at *
    obtain ⟨rows', i'⟩ := removed
    dsimp only at *
    split
    . refine ⟨⟨ih.arranged, ih.roomy, ?_, ih.target⟩, ih.backed, ih.outside⟩
      exact fun k hk => ih.unmoved k fun n hn => hk n (List.mem_cons_of_mem _ hn)
    . next hne =>
      apply ih.removeRow hj hne
      intro n hn
      rw [List.mem_singleton.mp hn]
      exact hleaves j List.mem_cons_self

end Around

section Gone

variable {rows : List Row} {doomed : List Nat} {i : Nat}

theorem unmoved_removeAround (rows : List Row) (i : Nat) {k : Nat} (hk : ∀ n ∈ doomed, k < n) :
    ((removeAround rows i doomed).1.map bare)[k]? = (rows.map bare)[k]? := by
  induction doomed with
  | nil => rfl
  | cons j doomed ih =>
    obtain ⟨hj, hk⟩ := List.forall_mem_cons.mp hk
    have ih := ih hk
    rw [removeAround, List.foldr_cons, ← removeAround]
    generalize removeAround rows i doomed = removed at *
    obtain ⟨rows', i'⟩ := removed
    dsimp only at *
    split
    . exact ih
    . rw [map_bare_removeRow, List.getElem?_eraseIdx, if_pos hj, ih]

theorem eq_of_stamp_eq {lines : List Line} (h : (lines.map fun line => line.stamp).Nodup)
    {a b : Nat} {x y : Line} (ha : lines[a]? = some x) (hb : lines[b]? = some y)
    (heq : x.stamp = y.stamp) : a = b := by
  have hlt : a < (lines.map fun line => line.stamp).length := by
    simpa using (List.getElem?_eq_some_iff.mp ha).1
  apply (List.getElem?_inj hlt h).mp
  rw [List.getElem?_map, List.getElem?_map, ha, hb, Option.map_some, Option.map_some, heq]

theorem stamp_ne_of_mem_removeAround (hdistinct : (rows.map fun row => row.line.stamp).Nodup)
    (hsorted : doomed.Pairwise (· < ·)) :
    ∀ n ∈ doomed, n ≠ i → ∀ row, rows[n]? = some row →
      ∀ r ∈ (removeAround rows i doomed).1, r.line.stamp ≠ row.line.stamp := by
  intro n hn hne row hrow r hr
  have hstamps : ((rows.map bare).map fun line => line.stamp).Nodup := by
    rw [List.map_map]
    exact hdistinct
  induction doomed generalizing r with
  | nil => simp at hn
  | cons j doomed ih =>
    obtain ⟨hj, hsorted⟩ := List.pairwise_cons.mp hsorted
    obtain ⟨hsub, hget⟩ := map_bare_removeAround rows i doomed
    have hunmoved := unmoved_removeAround rows i hj
    have ih := ih hsorted
    rw [removeAround, List.foldr_cons, ← removeAround] at hr
    generalize removeAround rows i doomed = removed at *
    obtain ⟨rows', i'⟩ := removed
    dsimp only at *
    rcases List.mem_cons.mp hn with rfl | hn
    . have hbare : (rows.map bare)[n]? = some (bare row) := by
        rw [List.getElem?_map, hrow, Option.map_some]
      rw [hbare] at hunmoved
      have hkept : n ≠ i' := by
        rintro rfl
        rw [hunmoved, eq_comm] at hget
        exact hne (eq_of_stamp_eq hstamps hbare hget rfl)
      rw [if_neg hkept] at hr
      have hmem := List.mem_map_of_mem (f := bare) hr
      rw [map_bare_removeRow, List.mem_eraseIdx_iff_getElem?] at hmem
      obtain ⟨k, hk, hget'⟩ := hmem
      intro heq
      exact hk (eq_of_stamp_eq ((hsub.map _).nodup hstamps) hget' hunmoved heq)
    . split at hr
      . exact ih hn r hr
      . have hmem := List.mem_map_of_mem (f := bare) hr
        rw [map_bare_removeRow] at hmem
        obtain ⟨r', hr', heq⟩ := List.mem_map.mp (List.mem_of_mem_eraseIdx hmem)
        have hstamp : r'.line.stamp = r.line.stamp := congrArg (·.stamp) heq
        exact hstamp ▸ ih hn r' hr'

end Gone

def Childless (rows : List Row) (root next : Stamp) : Prop :=
  ∀ r ∈ rows, r.line.stamp.number < next.number
    ∧ ∀ s, r.line.source = some s → s.number < next.number ∧ (s = root → r.line.stamp = root)

theorem Childless.of_links {rows rows' : List Row} {root next : Stamp}
    (h : Childless rows root next)
    (hlinks : (rows'.map fun r => link r.line) ⊆ rows.map fun r => link r.line) :
    Childless rows' root next := by
  intro r' hr'
  obtain ⟨r, hr, heq⟩ := List.mem_map.mp (hlinks (List.mem_map_of_mem hr'))
  obtain ⟨hstamp, hsource⟩ := Prod.mk.inj heq
  rw [← hstamp, ← hsource]
  exact h r hr

structure Primed (before after : List Row) (row : Row) (next : Stamp) : Prop where
  arranged : Arranged (before ++ row :: after)
  roomy : Roomy (before ++ row :: after)
  backed : Backed (before ++ row :: after)
  outside : StandingOutside (before ++ row :: after) row.label
  childless : Childless (before ++ row :: after) row.line.stamp next

theorem mem_generated_of_source {rows : List Row} {k : Nat} {r : Row} {root : Stamp}
    (hr : rows[k]? = some r) (hsource : r.line.source = some root) (hne : root ≠ r.line.stamp) :
    k ∈ generated rows root := by
  have hlt := (List.getElem?_eq_some_iff.mp hr).1
  obtain ⟨n, hn⟩ := Nat.exists_eq_succ_of_ne_zero (Nat.ne_of_gt (Nat.zero_lt_of_lt hlt))
  rw [generated, hn, reachedWithin, generatedFrom, List.mem_filter, List.mem_range]
  refine ⟨hlt, ?_⟩
  rw [hr, Option.any_some, hsource, Option.any_some]
  simp [hne]

theorem exists_primed {rows : List Row} {i : Nat} {row : Row} {next : Stamp} (h : Arranged rows)
    (hroomy : Roomy rows) (hbacked : Backed rows) (hrow : rows[i]? = some row)
    (houtside : StandingOutside rows row.label)
    (hdistinct : (rows.map fun r => r.line.stamp).Nodup)
    (hissued : ∀ r ∈ rows, r.line.stamp.number < next.number
      ∧ ∀ s, r.line.source = some s → s.number < next.number)
    (hleaves : Leaves rows (generated rows row.line.stamp)) :
    ∃ before after target,
      removeAround rows i (generated rows row.line.stamp)
          = (before ++ target :: after, before.length)
        ∧ bare target = bare row ∧ Primed before after target next := by
  have hsorted : (generated rows row.line.stamp).Pairwise (· < ·) := pairwise_reachedWithin ..
  have htended := tended_removeAround h hroomy hbacked hrow houtside hsorted hleaves
  have hgone := stamp_ne_of_mem_removeAround (i := i) hdistinct hsorted
  have horigin : ∀ r ∈ (removeAround rows i (generated rows row.line.stamp)).1,
      ∃ x ∈ rows, bare x = bare r := by
    intro r hr
    exact List.mem_map.mp
      ((map_bare_removeAround ..).1.subset (List.mem_map_of_mem (f := bare) hr))
  generalize removeAround rows i (generated rows row.line.stamp) = removed at *
  obtain ⟨rows', j⟩ := removed
  obtain ⟨target, htarget, hbare, -⟩ := htended.target
  have hroot : target.line.stamp = row.line.stamp := congrArg (·.stamp) hbare
  obtain ⟨before, after, rfl, rfl⟩ := exists_split_of_getElem? htarget
  refine ⟨before, after, target, rfl, hbare, htended.arranged, htended.roomy, htended.backed,
    htended.outside target htarget, ?_⟩
  intro r hr
  obtain ⟨x, hx, hxr⟩ := horigin r hr
  have hstamp : x.line.stamp = r.line.stamp := congrArg (·.stamp) hxr
  have hsource : x.line.source = r.line.source := congrArg (·.source) hxr
  obtain ⟨hlt, hlt'⟩ := hissued x hx
  rw [← hstamp, ← hsource]
  refine ⟨hlt, fun s hs => ⟨hlt' s hs, ?_⟩⟩
  rintro rfl
  obtain ⟨k, hk⟩ := List.getElem?_of_mem hx
  by_contra hne
  rw [hroot] at hs hne
  refine hgone k (mem_generated_of_source hk hs (Ne.symm hne)) ?_ x hk r hr hstamp.symm
  rintro rfl
  obtain rfl : row = x := by simpa [hrow] using hk
  exact hne rfl

section Regular

variable {d : Derivation} {i : Nat} {row : Row} {line : Line} (h : Regular d)
include h

theorem Regular.backed : Backed d.rows := by
  intro row hrow label hlabel
  obtain ⟨i, hi⟩ := List.getElem?_of_mem hrow
  obtain ⟨j, hj⟩ := List.getElem?_of_mem (h.earlier i row hi label hlabel)
  have hlt : j < i := by
    have := (List.getElem?_eq_some_iff.mp hj).1
    simp at this
    omega
  rw [List.getElem?_take_of_lt hlt, labels, List.getElem?_map] at hj
  obtain ⟨r, hr, rfl⟩ := Option.map_eq_some_iff.mp hj
  exact ⟨r, List.mem_of_getElem? hr, rfl, h.ordered.before_of_lt hr hi hlt⟩

variable (hrow : d.rows[i]? = some row)
include hrow

theorem Regular.standingOutside_setLine (line : Line) :
    StandingOutside (d.setLine i line).rows row.label := by
  obtain ⟨before, after, hrows, rfl⟩ := exists_split_of_getElem? hrow
  have hset : (d.setLine before.length line).rows = before ++ ⟨row.label, line⟩ :: after := by
    rw [setLine, hrows, modify_split]
  intro y hy houtside
  obtain ⟨x, hx, heq⟩ : ∃ x ∈ d.rows, x.label = y.label :=
    exists_of_mem_of_labels (by simp [hset, hrows]) hy
  have hstanding := h.standing hx
  rw [heq, hrows] at hstanding
  rw [hset]
  exact hstanding.setLine houtside line

variable (hretains : Retains d.rows row line)
include hretains

theorem Regular.backed_setLine : Backed (d.setLine i line).rows := by
  obtain ⟨before, after, hrows, rfl⟩ := exists_split_of_getElem? hrow
  have hset : (d.setLine before.length line).rows = before ++ ⟨row.label, line⟩ :: after := by
    rw [setLine, hrows, modify_split]
  have himage : ∀ r ∈ d.rows, ∃ r' ∈ (d.setLine before.length line).rows, r'.label = r.label := by
    intro r hr
    exact exists_of_mem_of_labels (by simp [hset, hrows]) hr
  intro x hx label hlabel
  obtain ⟨r, hr, rfl, hbefore⟩ : ∃ r ∈ d.rows, r.label = label ∧ r.label.before x.label := by
    rw [hset] at hx
    simp only [List.mem_append, List.mem_cons] at hx
    rcases hx with hx | rfl | hx
    . exact h.backed x (by simp [hrows, hx]) label hlabel
    . rcases hretains.cited label hlabel with hlabel | ⟨hvisible, r, hr, rfl⟩
      . exact h.backed row (List.mem_of_getElem? hrow) label hlabel
      . exact ⟨r, hr, rfl, Label.before_of_visibleAt hvisible⟩
    . exact h.backed x (by simp [hrows, hx]) label hlabel
  obtain ⟨r', hr', heq⟩ := himage r hr
  exact ⟨r', hr', heq, heq ▸ hbefore⟩

variable (hissued : ∀ r ∈ d.rows, r.line.stamp.number < d.stamp.number
    ∧ ∀ s, r.line.source = some s → s.number < d.stamp.number)
  (hleaves : Leaves d.rows (generated d.rows row.line.stamp))
include hissued hleaves

theorem Regular.exists_primed_setLine :
    ∃ before after target,
      removeAround (d.setLine i line).rows i (generated (d.setLine i line).rows row.line.stamp)
          = (before ++ target :: after, before.length)
        ∧ bare target = bare ⟨row.label, line⟩ ∧ Primed before after target d.stamp := by
  have hbacked := h.backed_setLine hrow hretains
  have houtside := h.standingOutside_setLine hrow line
  obtain ⟨front, back, hrows, rfl⟩ := exists_split_of_getElem? hrow
  have hset : (d.setLine front.length line).rows = front ++ ⟨row.label, line⟩ :: back := by
    rw [setLine, hrows, modify_split]
  have hlabels : (d.setLine front.length line).rows.map Row.label = d.rows.map Row.label := by
    simp [hset, hrows]
  have hget : (d.setLine front.length line).rows[front.length]? = some ⟨row.label, line⟩ := by
    rw [hset, getElem?_split]
  have hlink := hretains.link_eq
  rw [← hretains.stamp]
  rw [hrows] at hissued
  apply exists_primed (h.arranged.of_labels hlabels) (h.roomy.of_labels hlabels) hbacked hget
    houtside
  . have := h.distinct
    simpa [hset, hrows, hretains.stamp] using this
  . intro r hr
    simp only [hset, List.mem_append, List.mem_cons] at hr
    rcases hr with hr | rfl | hr
    . exact hissued r (by simp [hr])
    . rw [hretains.stamp, hretains.source]
      exact hissued row (by simp)
    . exact hissued r (by simp [hr])
  . rw [hretains.stamp, hset, generated_setLine hlink, ← hrows, ← hset]
    exact hleaves.of_labels hlabels

end Regular

end ProofDesk.Derivation
