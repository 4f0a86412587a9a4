import ProofDesk.Proofs.Abandoned
import ProofDesk.Proofs.Edit.Expand

/-!
This module contains what the single steps of an edit do to the subproofs around a line, for rows
that need not be tidy: the rows stay in order, every subproof keeps its closing line, and the
subproofs around the edited line keep the direct proofs that close them.
-/

namespace ProofDesk.Derivation

def imprint (row : Row) : Label × Line :=
  (row.label, bare row)

def Roomy (rows : List Row) : Prop :=
  ∀ row ∈ rows, ∀ n ∈ row.label.parts, n + 2 < Label.maxPart

theorem Roomy.of_labels {rows rows' : List Row} (h : Roomy rows)
    (hlabels : rows'.map Row.label = rows.map Row.label) : Roomy rows' := by
  intro row hrow
  obtain ⟨x, hx, heq⟩ := exists_of_mem_of_labels hlabels hrow
  rw [← heq]
  exact h x hx

theorem Roomy.shift_neg_one {rows : List Row} (h : Roomy rows) (pos : Label) :
    ∀ row ∈ rows, row.label.shift pos (-1) = Label.moveFrom (· - 1) pos row.label := by
  intro row hrow
  apply Label.shift_neg_one
  intro n hn
  have := h row hrow n hn
  omega

section Imprint

variable {rows rows' : List Row} {g : Row → Label × Line}

theorem exists_of_mem_of_map_imprint_eq (h : rows'.map imprint = rows.map g) {y : Row}
    (hy : y ∈ rows') : ∃ x ∈ rows, imprint y = g x := by
  have hmem := List.mem_map_of_mem (f := imprint) hy
  rw [h, List.mem_map] at hmem
  obtain ⟨x, hx, heq⟩ := hmem
  exact ⟨x, hx, heq.symm⟩

theorem exists_image_of_map_imprint_eq (h : rows'.map imprint = rows.map g) {x : Row}
    (hx : x ∈ rows) : ∃ y ∈ rows', imprint y = g x := by
  have hmem := List.mem_map_of_mem (f := g) hx
  rw [← h, List.mem_map] at hmem
  exact hmem

theorem label_of_imprint_eq {x y : Row} {l : Label} (h : imprint y = (l, bare x)) :
    y.label = l ∧ y.line.step.rule = x.line.step.rule := by
  obtain ⟨hlabel, hbare⟩ := Prod.mk.inj h
  exact ⟨hlabel, congrArg (fun line => line.step.rule) hbare⟩

end Imprint

section Moved

variable {closing : Option Rule → Prop} {rows rows' : List Row} {l pos : Label} {f : Nat → Nat}

theorem Enclosed.of_image (h : Enclosed closing rows l)
    (himage : ∀ x ∈ rows, l.isInside x.label →
      ∃ y ∈ rows', y.label = x.label ∧ y.line.step.rule = x.line.step.rule) :
    Enclosed closing rows' l := by
  intro header hin hne
  obtain ⟨x, hx, rfl, hrule⟩ := h header hin hne
  obtain ⟨y, hy, hlabel, hrule'⟩ := himage x hx hin
  exact ⟨y, hy, hlabel, hrule' ▸ hrule⟩

theorem Enclosed.moveFrom (h : Enclosed closing rows l)
    (hpos : l.isInside pos → ∃ y ∈ rows', y.label = pos ∧ closing y.line.step.rule)
    (himage : ∀ x ∈ rows, x.label ≠ pos → closing x.line.step.rule →
      ∃ y ∈ rows', y.label = Label.moveFrom f pos x.label ∧ closing y.line.step.rule) :
    Enclosed closing rows' (Label.moveFrom f pos l) := by
  intro header hin hne
  rcases Label.moveFrom_isInside_cases f hin with ⟨hin', rfl⟩ | ⟨header, hne', hin', rfl⟩
  . exact hpos hin'
  . obtain ⟨x, hx, rfl, hrule⟩ := h header hin' (by simpa using hne)
    exact himage x hx hne' hrule

theorem enclosed_addLast_iff (hne : l.parts ≠ []) {k : Nat} :
    Enclosed closing rows (l.addLast k) ↔ Enclosed closing rows l := by
  unfold Enclosed
  simp only [Label.isInside_addLast_iff hne]

theorem Enclosed.of_visibleAt (h : Enclosed closing rows l) {label : Label}
    (hvisible : label.visibleAt l) : Enclosed closing rows label := by
  intro header hin
  exact h header (Label.isInside_of_visibleAt hvisible hin)

theorem Enclosed.child (h : Enclosed closing rows l)
    (hl : ∃ row ∈ rows, row.label = l ∧ closing row.line.step.rule) (k : Nat) :
    Enclosed closing rows (l.child k) := by
  intro header hin hne
  rcases Label.isInside_child_iff.mp hin with rfl | hin
  . exact hl
  . exact h header hin hne

end Moved

section Leaf

variable {before after : List Row} {leaf : Row} (h : Arranged (before ++ leaf :: after))
  (hroomy : Roomy (before ++ leaf :: after))
  (hleaf : ∀ x ∈ before, x.label.isInside leaf.label = false)

include h hroomy in
theorem map_imprint_removeRow :
    (removeRow (before ++ leaf :: after) before.length).map imprint
      =
    (before ++ after).map fun x => (Label.moveFrom (· - 1) leaf.label x.label, bare x) := by
  rw [removeRow_split, List.map_append, List.map_append, List.map_map, List.map_map]
  congr 1
  . apply List.map_congr_left
    intro x hx
    change (x.label, bare (x.forget leaf.label)) = _
    rw [bare_forget, Label.moveFrom_of_before _ (h.ordered.before_of_mem_left hx)]
  . apply List.map_congr_left
    intro x hx
    have hlabel : (closeUp leaf.label x).label = Label.moveFrom (· - 1) leaf.label x.label :=
      hroomy.shift_neg_one leaf.label x (by simp [hx])
    simp [imprint, hlabel]

include h hroomy in
theorem exists_getElem?_removeRow {i : Nat} {row : Row}
    (hrow : (before ++ leaf :: after)[i]? = some row) (hne : before.length ≠ i) :
    ∃ row', (removeRow (before ++ leaf :: after) before.length)[
          if before.length < i then i - 1 else i]? = some row'
      ∧ row'.label = Label.moveFrom (· - 1) leaf.label row.label ∧ bare row' = bare row := by
  split
  . next hlt =>
    refine ⟨_, getElem?_removeRow (getElem?_split leaf) hrow hlt, ?_, bare_closeUp ..⟩
    exact hroomy.shift_neg_one leaf.label row (List.mem_of_getElem? hrow)
  . have hlt : i < before.length := by omega
    rw [List.getElem?_append_left hlt] at hrow
    refine ⟨row.forget leaf.label, ?_, ?_, bare_forget ..⟩
    . rw [removeRow_split, List.getElem?_append_left (by simpa using hlt), List.getElem?_map, hrow]
      rfl
    . have hbefore := h.ordered.before_of_mem_left (List.mem_of_getElem? hrow)
      rw [Label.moveFrom_of_before _ hbefore]
      rfl

include h hleaf in
theorem not_isInside_leaf {x : Row} (hx : x ∈ before ++ leaf :: after) :
    x.label.isInside leaf.label = false := by
  simp only [List.mem_append, List.mem_cons] at hx
  rcases hx with hx | rfl | hx
  . exact hleaf x hx
  . apply Label.isInside_irrefl
  . exact h.ordered.not_isInside_of_mem_right hx

theorem mem_of_mem_around {x : Row} (hx : x ∈ before ++ after) :
    x ∈ before ++ leaf :: after := by
  simp only [List.mem_append, List.mem_cons] at hx ⊢
  exact hx.imp_right .inr

include h hroomy in
theorem Enclosed.removeRow {closing : Option Rule → Prop} {l : Label}
    (hl : l.isInside leaf.label = false)
    (henclosed : Enclosed closing (before ++ leaf :: after) l) :
    Enclosed closing (removeRow (before ++ leaf :: after) before.length)
      (Label.moveFrom (· - 1) leaf.label l) := by
  apply henclosed.moveFrom
  . simp [hl]
  intro x hx hne hrule
  have hx : x ∈ before ++ after := by
    simp only [List.mem_append, List.mem_cons] at hx ⊢
    grind
  obtain ⟨y, hy, heq⟩ := exists_image_of_map_imprint_eq (map_imprint_removeRow h hroomy) hx
  obtain ⟨hlabel, hrule'⟩ := label_of_imprint_eq heq
  exact ⟨y, hy, hlabel, hrule' ▸ hrule⟩

include h hroomy hleaf in
theorem Arranged.removeRow :
    Arranged (removeRow (before ++ leaf :: after) before.length) := by
  have himprint := map_imprint_removeRow h hroomy
  refine ⟨?_, ?_, ?_⟩
  . have hlabels := congrArg (List.map Prod.fst) himprint
    rw [List.map_map, List.map_map] at hlabels
    rw [ordered_iff_labels]
    have hsame : Prod.fst ∘ imprint = Row.label := rfl
    rw [← hsame, hlabels, List.pairwise_map]
    have hsub : (before ++ after).Sublist (before ++ leaf :: after) :=
      (List.sublist_cons_self ..).append_left _
    apply (h.ordered.sublist hsub).imp_of_mem
    intro a b ha hb hab
    apply Label.moveFrom_pred_before _ _ _ hab
    . exact h.ordered.label_ne_of_mem ha
    . exact h.ordered.label_ne_of_mem hb
    . simp [not_isInside_leaf h hleaf (mem_of_mem_around ha)]
  . intro y hy
    obtain ⟨x, hx, heq⟩ := exists_of_mem_of_map_imprint_eq himprint hy
    rw [(label_of_imprint_eq heq).1]
    apply Enclosed.removeRow h hroomy
    . exact not_isInside_leaf h hleaf (mem_of_mem_around hx)
    . exact h.rooted x (mem_of_mem_around hx)
  . intro y hy
    obtain ⟨x, hx, heq⟩ := exists_of_mem_of_map_imprint_eq himprint hy
    rw [(label_of_imprint_eq heq).1]
    simpa using h.ne_nil x (mem_of_mem_around hx)

include h hroomy in
theorem Roomy.removeRow : Roomy (removeRow (before ++ leaf :: after) before.length) := by
  intro y hy
  obtain ⟨x, hx, heq⟩ := exists_of_mem_of_map_imprint_eq (map_imprint_removeRow h hroomy) hy
  rw [(label_of_imprint_eq heq).1]
  apply Label.forall_parts_moveFrom
  intro m hm
  have := hroomy x (mem_of_mem_around hx) m hm
  exact ⟨this, by omega⟩

end Leaf

structure Cleared (rows : List Row) (row : Row) (doomed : List Nat) (rows' : List Row) (j : Nat) :
    Prop where
  arranged : Arranged rows'
  roomy : Roomy rows'
  unmoved : ∀ k, (∀ n ∈ doomed, k < n) → rows'[k]?.map Row.label = rows[k]?.map Row.label
  target : ∃ row', rows'[j]? = some row' ∧ bare row' = bare row ∧ Standing rows' row'.label

section Around

variable {rows rows' : List Row} {row : Row} {doomed : List Nat} {i j : Nat}

def Leaves (rows : List Row) (doomed : List Nat) : Prop :=
  ∀ j ∈ doomed, ∃ leaf, rows[j]? = some leaf ∧ ∀ x ∈ rows, x.label.isInside leaf.label = false

theorem Leaves.of_labels (h : Leaves rows doomed)
    (hlabels : rows'.map Row.label = rows.map Row.label) : Leaves rows' doomed := by
  intro j hj
  obtain ⟨leaf, hleaf, hinside⟩ := h j hj
  have hget := congrArg (·[j]?) hlabels
  simp only [List.getElem?_map, hleaf, Option.map_some] at hget
  obtain ⟨leaf', hleaf', hlabel⟩ := Option.map_eq_some_iff.mp hget
  refine ⟨leaf', hleaf', ?_⟩
  intro x hx
  obtain ⟨y, hy, heq⟩ := exists_of_mem_of_labels hlabels hx
  rw [hlabel, ← heq]
  exact hinside y hy

theorem Cleared.exists_leaf (h : Cleared rows row doomed rows' i)
    (hj : ∀ n ∈ doomed, j < n) (hleaf : Leaves rows [j]) :
    ∃ before leaf after, rows' = before ++ leaf :: after ∧ before.length = j
      ∧ ∀ x ∈ before, x.label.isInside leaf.label = false := by
  obtain ⟨old, hold, hinside⟩ := hleaf j (List.mem_singleton_self j)
  have hlabel := h.unmoved j hj
  rw [hold, Option.map_some, Option.map_eq_some_iff] at hlabel
  obtain ⟨leaf, hleaf, hlabel⟩ := hlabel
  obtain ⟨before, after, rfl, rfl⟩ := exists_split_of_getElem? hleaf
  refine ⟨before, leaf, after, rfl, rfl, ?_⟩
  intro x hx
  obtain ⟨k, hk⟩ := List.getElem?_of_mem hx
  have hlt := (List.getElem?_eq_some_iff.mp hk).1
  have hsame := h.unmoved k fun n hn => Nat.lt_trans hlt (hj n hn)
  rw [List.getElem?_append_left hlt, hk, Option.map_some, eq_comm, Option.map_eq_some_iff] at hsame
  obtain ⟨y, hy, hyx⟩ := hsame
  rw [← hyx, hlabel]
  exact hinside y (List.mem_of_getElem? hy)

theorem Cleared.removeRow (h : Cleared rows row doomed rows' i) (hj : ∀ n ∈ doomed, j < n)
    (hne : j ≠ i) (hleaf : Leaves rows [j]) :
    Cleared rows row (j :: doomed) (removeRow rows' j) (if j < i then i - 1 else i) := by
  obtain ⟨before, leaf, after, rfl, rfl, hbefore⟩ := h.exists_leaf hj hleaf
  refine ⟨h.arranged.removeRow h.roomy hbefore, .removeRow h.arranged h.roomy, ?_, ?_⟩
  . intro k hk
    rw [← h.unmoved k fun n hn => hk n (List.mem_cons_of_mem _ hn)]
    have hlt := hk before.length List.mem_cons_self
    rw [removeRow_split, List.getElem?_append_left (by simpa using hlt),
      List.getElem?_append_left hlt, List.getElem?_map, Option.map_map]
    rfl
  . obtain ⟨target, htarget, hbare, hstanding⟩ := h.target
    have hin := not_isInside_leaf h.arranged hbefore (List.mem_of_getElem? htarget)
    obtain ⟨target', htarget', hlabel, hbare'⟩ :=
      exists_getElem?_removeRow h.arranged h.roomy htarget hne
    refine ⟨target', htarget', hbare'.trans hbare, ?_⟩
    rw [hlabel]
    exact Enclosed.removeRow h.arranged h.roomy hin hstanding

theorem cleared_removeAround (h : Arranged rows) (hroomy : Roomy rows) (hrow : rows[i]? = some row)
    (hstanding : Standing rows row.label) (hsorted : doomed.Pairwise (· < ·))
    (hleaves : Leaves rows doomed) :
    Cleared rows row doomed (removeAround rows i doomed).1 (removeAround rows i doomed).2 := by
  induction doomed with
  | nil => exact ⟨h, hroomy, fun _ _ => rfl, row, hrow, rfl, hstanding⟩
  | cons j doomed ih =>
    obtain ⟨hj, hsorted⟩ := List.pairwise_cons.mp hsorted
    have ih := ih hsorted fun n hn => hleaves n (List.mem_cons_of_mem _ hn)
    rw [removeAround, List.foldr_cons, ← removeAround]
    generalize removeAround rows i doomed = removed at *
    obtain ⟨rows', i'⟩ := removed
    dsimp only at *
    split
    . exact ⟨ih.arranged, ih.roomy,
        fun k hk => ih.unmoved k fun n hn => hk n (List.mem_cons_of_mem _ hn), ih.target⟩
    . next hne =>
      apply ih.removeRow hj hne
      intro n hn
      rw [List.mem_singleton.mp hn]
      exact hleaves j List.mem_cons_self

end Around

section Inside

variable {header : Label}

theorem removeInside_eq_self {outer : List Row}
    (houter : ∀ x ∈ outer, x.label.isInside header = false) (rest : List Row) :
    removeInside header outer.length (outer ++ rest) = (outer ++ rest, outer.length) := by
  obtain rfl | ⟨init, last, rfl⟩ := List.eq_nil_or_concat' outer
  . rfl
  . have hlast := houter last (by simp)
    rw [List.length_append, List.length_singleton, removeInside, List.append_assoc,
      List.singleton_append, getElem?_split]
    simp [hlast]

theorem removeInside_eq {outer inner : List Row} (hinner : ∀ x ∈ inner, x.label.isInside header)
    (houter : ∀ x ∈ outer, x.label.isInside header = false) (rest : List Row) :
    removeInside header (outer ++ inner).length (outer ++ inner ++ rest)
      =
    (outer.map (forgetAll (inner.map Row.label))
      ++ rest.map (fun row => (inner.map Row.label).foldr closeUp row), outer.length) := by
  -- Rows before those that are taken out forget them, and rows after them close up to the last one
  -- first.
  induction hn : inner.length generalizing outer inner rest with
  | zero =>
    obtain rfl := List.length_eq_zero_iff.mp hn
    have hsame : outer.map (forgetAll []) ++ rest.map (fun row => row) = outer ++ rest := by
      rw [List.map_id', forgetAll_nil, List.map_id]
    simp only [List.map_nil, List.foldr_nil, List.append_nil, hsame]
    exact removeInside_eq_self houter rest
  | succ n ih =>
    obtain rfl | ⟨init, last, rfl⟩ := List.eq_nil_or_concat' inner
    . simp at hn
    have hlast := hinner last (by simp)
    have hinit : ∀ x ∈ init.map (Row.forget last.label), x.label.isInside header := by
      rw [List.forall_mem_map]
      exact fun x hx => hinner x (List.mem_append_left _ hx)
    have hforget : ∀ x ∈ outer.map (Row.forget last.label), x.label.isInside header = false := by
      rw [List.forall_mem_map]
      exact houter
    have ih := ih hinit hforget (rest.map (closeUp last.label)) (by simpa using hn)
    have hlabels : (init.map (Row.forget last.label)).map Row.label = init.map Row.label := by
      rw [List.map_map]
      rfl
    rw [hlabels, List.map_map, List.map_map, List.length_map, ← List.map_append, List.length_map]
      at ih
    rw [← List.append_assoc, List.length_append, List.length_singleton, removeInside,
      List.append_assoc, List.singleton_append, getElem?_split]
    simp only [Option.any_some, hlast, if_true]
    rw [removeRow_split, ih, List.map_append, List.map_singleton,
      forgetAll_perm (List.perm_append_singleton last.label _)]
    simp only [List.foldr_append]
    rfl

theorem imprint_forgetAll (labels : List Label) (row : Row) :
    imprint (forgetAll labels row) = imprint row := by
  rw [imprint, bare_forgetAll, label_forgetAll]
  rfl

theorem map_imprint_forgetAll (labels : List Label) (rows : List Row) :
    (rows.map (forgetAll labels)).map imprint = rows.map imprint := by
  rw [List.map_map]
  exact List.map_congr_left fun row _ => imprint_forgetAll labels row

theorem imprint_closeUp {label : Label} {row : Row} (hlabel : label.isInside header)
    (hrow : row.label.isInside header = false) : imprint (closeUp label row) = imprint row := by
  rw [imprint, bare_closeUp]
  change (row.label.shift label (-1), _) = _
  rw [Label.shift_eq_moveFrom, Label.moveFrom_of_not_isInside _ hlabel hrow]
  rfl

theorem imprint_foldr_closeUp {labels : List Label} (hlabels : ∀ l ∈ labels, l.isInside header)
    {row : Row} (hrow : row.label.isInside header = false) :
    imprint (labels.foldr closeUp row) = imprint row := by
  induction labels with
  | nil => rfl
  | cons label labels ih =>
    obtain ⟨hlabel, hlabels⟩ := List.forall_mem_cons.mp hlabels
    have ih := ih hlabels
    have hsame : (labels.foldr closeUp row).label = row.label := congrArg Prod.fst ih
    rw [List.foldr_cons, imprint_closeUp hlabel (hsame ▸ hrow), ih]

theorem exists_removeInside_eq_of_isInside {outer inner rest : List Row}
    (hinner : ∀ x ∈ inner, x.label.isInside header)
    (houter : ∀ x ∈ outer, x.label.isInside header = false)
    (hrest : ∀ x ∈ rest, x.label.isInside header = false) :
    ∃ outer' rest', removeInside header (outer ++ inner).length (outer ++ inner ++ rest)
        = (outer' ++ rest', outer'.length)
      ∧ outer'.map imprint = outer.map imprint ∧ rest'.map imprint = rest.map imprint := by
  have hlabels : ∀ l ∈ inner.map Row.label, l.isInside header := by
    rw [List.forall_mem_map]
    exact hinner
  refine ⟨outer.map (forgetAll (inner.map Row.label)),
    rest.map fun row => (inner.map Row.label).foldr closeUp row, ?_, ?_, ?_⟩
  . rw [removeInside_eq hinner houter, List.length_map]
  . exact map_imprint_forgetAll ..
  . rw [List.map_map]
    exact List.map_congr_left fun x hx => imprint_foldr_closeUp hlabels (hrest x hx)

end Inside

section Open

variable {outer inner after outer' after' : List Row} {row first second row' : Row}
  (h : Arranged (outer ++ inner ++ row :: after))
  (hinner : ∀ x ∈ inner, x.label.isInside row.label)
  (houter : ∀ x ∈ outer, x.label.isInside row.label = false)
  (houter' : outer'.map imprint = outer.map imprint)
  (hafter' : after'.map imprint = after.map imprint)
  (hlabel : row'.label = row.label) (hrule : row'.line.step.rule = row.line.step.rule)
include hinner houter' hafter' hlabel hrule

theorem Enclosed.openSubproof {closing : Option Rule → Prop} {l : Label}
    (henclosed : Enclosed closing (outer ++ inner ++ row :: after) l)
    (hl : l.isInside row.label = false) :
    Enclosed closing (outer' ++ first :: second :: row' :: after') l := by
  apply henclosed.of_image
  intro x hx hin
  simp only [List.mem_append, List.mem_cons] at hx ⊢
  rcases hx with (hx | hx) | rfl | hx
  . obtain ⟨y, hy, heq⟩ := exists_image_of_map_imprint_eq houter' hx
    exact ⟨y, .inl hy, label_of_imprint_eq heq⟩
  . simp [Label.isInside_trans hin (hinner x hx)] at hl
  . exact ⟨row', by simp, hlabel, hrule⟩
  . obtain ⟨y, hy, heq⟩ := exists_image_of_map_imprint_eq hafter' hx
    exact ⟨y, by simp [hy], label_of_imprint_eq heq⟩

include h houter in
theorem Arranged.openSubproof (hfirst : first.label = row.label.child 1)
    (hsecond : second.label = row.label.child 2) :
    Arranged (outer' ++ first :: second :: row' :: after') := by
  have hrow : row ∈ outer ++ inner ++ row :: after := by simp
  have hcase : ∀ y ∈ outer' ++ first :: second :: row' :: after',
      (∃ x ∈ outer ++ inner ++ row :: after,
        y.label = x.label ∧ x.label.isInside row.label = false)
      ∨ ∃ k, y.label = row.label.child k := by
    intro y hy
    simp only [List.mem_append, List.mem_cons] at hy
    rcases hy with hy | rfl | rfl | rfl | hy
    . obtain ⟨x, hx, heq⟩ := exists_of_mem_of_map_imprint_eq houter' hy
      exact .inl ⟨x, by simp [hx], congrArg Prod.fst heq, houter x hx⟩
    . exact .inr ⟨1, hfirst⟩
    . exact .inr ⟨2, hsecond⟩
    . exact .inl ⟨row, hrow, hlabel, Label.isInside_irrefl _⟩
    . obtain ⟨x, hx, heq⟩ := exists_of_mem_of_map_imprint_eq hafter' hy
      exact .inl ⟨x, by simp [hx], congrArg Prod.fst heq, h.ordered.not_isInside_of_mem_right hx⟩
  have henclosed : ∀ l, l.isInside row.label = false →
      Enclosed (fun _ => True) (outer ++ inner ++ row :: after) l →
      Enclosed (fun _ => True) (outer' ++ first :: second :: row' :: after') l := by
    intro l hl hrooted
    exact hrooted.openSubproof hinner houter' hafter' hlabel hrule hl
  refine ⟨?_, ?_, ?_⟩
  . have hlabels : (outer' ++ first :: second :: row' :: after').map Row.label
        = (outer ++ first :: second :: row :: after).map Row.label := by
      have houter' := congrArg (List.map Prod.fst) houter'
      have hafter' := congrArg (List.map Prod.fst) hafter'
      rw [List.map_map, List.map_map] at houter' hafter'
      simp only [List.map_append, List.map_cons, hlabel]
      congr 1
      congr 3
    rw [ordered_iff_labels, hlabels, ← ordered_iff_labels]
    have hsub : (outer ++ row :: after).Sublist (outer ++ inner ++ row :: after) :=
      (List.sublist_append_left ..).append_right _
    exact Ordered.insert_children (h.ordered.sublist hsub) houter hfirst hsecond
  . intro y hy
    rcases hcase y hy with ⟨x, hx, heq, hin⟩ | ⟨k, heq⟩
    . rw [heq]
      exact henclosed _ hin (h.rooted x hx)
    . rw [heq]
      apply (henclosed _ (Label.isInside_irrefl _) (h.rooted row hrow)).child
      exact ⟨row', by simp, hlabel, trivial⟩
  . intro y hy
    rcases hcase y hy with ⟨x, hx, heq, -⟩ | ⟨k, heq⟩
    . rw [heq]
      exact h.ne_nil x hx
    . rw [heq]
      simp [Label.child]

end Open

theorem exists_rows_openSubproof_eq {d : Derivation} {before after : List Row} {row : Row}
    (hrows : d.rows = before ++ row :: after) (h : Arranged d.rows)
    (hstanding : Standing d.rows row.label) (source : Stamp) (premise goal : Formula) :
    ∃ outer rest row', bare row' = bare row
      ∧ (d.openSubproof before.length row.label source premise goal).rows
        = outer ++ ⟨row.label.child 1, assumptionLine premise d.stamp source⟩
          :: ⟨row.label.child 2, goalLine goal d.stamp.next source⟩
          :: ⟨row.label, { row'.line with
            arguments := [some (row.label.child 1), some (row.label.child 2)] }⟩ :: rest
      ∧ Arranged (d.openSubproof before.length row.label source premise goal).rows
      ∧ Standing (d.openSubproof before.length row.label source premise goal).rows row.label := by
  have hordered := h.ordered
  rw [hrows] at hordered
  obtain ⟨outer, inner, rfl, houter, hinner⟩ := hordered.exists_split_isInside
  have hlater : ∀ x ∈ row :: after, x.label.isInside row.label = false := by
    intro x hx
    rcases List.mem_cons.mp hx with rfl | hx
    . exact Label.isInside_irrefl _
    . exact hordered.not_isInside_of_mem_right hx
  obtain ⟨outer', rest', hremove, houter', hrest'⟩ :=
    exists_removeInside_eq_of_isInside hinner houter hlater
  obtain ⟨row', after', rfl⟩ : ∃ row' after', rest' = row' :: after' := by
    apply List.exists_cons_of_ne_nil
    rintro rfl
    simp at hrest'
  obtain ⟨himprint, hafter'⟩ := List.cons.inj hrest'
  obtain ⟨hlabel, hbare⟩ := Prod.mk.inj himprint
  have hrule : row'.line.step.rule = row.line.step.rule := (label_of_imprint_eq himprint).2
  rw [← hrows] at hremove
  rw [hrows] at h hstanding
  refine ⟨outer', after', row', hbare, ?_⟩
  rw [openSubproof_eq hremove, hlabel]
  refine ⟨rfl, ?_, ?_⟩
  . apply h.openSubproof hinner houter houter' hafter' _ _ rfl rfl
    . rfl
    . exact hrule
  . apply hstanding.openSubproof hinner houter' hafter' _ _ (Label.isInside_irrefl _)
    . rfl
    . exact hrule

section Insert

variable {before after before' new moved : List Row} {row : Row}
  (h : Arranged (before ++ row :: after))
  (hbefore : before'.map Row.label = before.map Row.label)
  (hnew : ∀ (t : Nat) (r : Row), new[t]? = some r → r.label = row.label.addLast t)
  (hmoved : moved.map Row.label
    = (row :: after).map fun r => Label.moveFrom (· + new.length) row.label r.label)
include h hbefore hnew hmoved

theorem exists_of_mem_insert {y : Row} (hy : y ∈ before' ++ new ++ moved) :
    (∃ x ∈ before ++ row :: after,
        y.label = Label.moveFrom (· + new.length) row.label x.label)
      ∨ ∃ t, y.label = row.label.addLast t := by
  rcases List.mem_append.mp hy with hy | hy
  . rcases List.mem_append.mp hy with hy | hy
    . obtain ⟨x, hx, heq⟩ := exists_of_mem_of_labels hbefore hy
      refine .inl ⟨x, List.mem_append_left _ hx, ?_⟩
      rw [Label.moveFrom_of_before _ (h.ordered.before_of_mem_left hx), heq]
    . obtain ⟨t, ht⟩ := List.getElem?_of_mem hy
      exact .inr ⟨t, hnew t y ht⟩
  . have hmem := List.mem_map_of_mem (f := Row.label) hy
    rw [hmoved, List.mem_map] at hmem
    obtain ⟨x, hx, heq⟩ := hmem
    exact .inl ⟨x, List.mem_append_right _ hx, heq.symm⟩

omit hnew in
theorem exists_image_insert {x : Row} (hx : x ∈ before ++ row :: after) :
    ∃ y ∈ before' ++ new ++ moved,
      y.label = Label.moveFrom (· + new.length) row.label x.label := by
  rcases List.mem_append.mp hx with hx | hx
  . obtain ⟨y, hy, heq⟩ := exists_of_mem_of_labels hbefore.symm hx
    refine ⟨y, by simp [hy], ?_⟩
    rw [Label.moveFrom_of_before _ (h.ordered.before_of_mem_left hx), heq]
  . have hmem := List.mem_map_of_mem
      (f := fun r : Row => Label.moveFrom (· + new.length) row.label r.label) hx
    rw [← hmoved, List.mem_map] at hmem
    obtain ⟨y, hy, heq⟩ := hmem
    exact ⟨y, by simp [hy], heq⟩

theorem ordered_insert : Ordered (before' ++ new ++ moved) := by
  let move (r : Row) : Row := ⟨Label.moveFrom (· + new.length) row.label r.label, r.line⟩
  have hordered : Ordered (before ++ new ++ (row :: after).map move) :=
    h.ordered.insert_moveFrom (h.ne_nil row (by simp)) hnew fun _ _ => rfl
  have hmoved' : moved.map Row.label = ((row :: after).map move).map Row.label := by
    rw [hmoved, List.map_map]
    rfl
  rw [ordered_iff_labels] at hordered ⊢
  rw [List.map_append, List.map_append, hbefore, hmoved', ← List.map_append, ← List.map_append]
  exact hordered

theorem Enclosed.insert {closing : Option Rule → Prop}
    (henclosed : ∀ x ∈ before ++ row :: after, Enclosed closing (before ++ row :: after) x.label)
    (hbase : ∀ x ∈ before ++ row :: after, x.label.isInside row.label →
      ∃ y ∈ before' ++ new ++ moved, y.label = row.label ∧ closing y.line.step.rule)
    (himage : ∀ x ∈ before ++ row :: after, x.label ≠ row.label → closing x.line.step.rule →
      ∃ y ∈ before' ++ new ++ moved,
        y.label = Label.moveFrom (· + new.length) row.label x.label
          ∧ closing y.line.step.rule) :
    ∀ y ∈ before' ++ new ++ moved, Enclosed closing (before' ++ new ++ moved) y.label := by
  have hmove : ∀ x ∈ before ++ row :: after, Enclosed closing (before' ++ new ++ moved)
      (Label.moveFrom (· + new.length) row.label x.label) := by
    intro x hx
    exact (henclosed x hx).moveFrom (hbase x hx) himage
  intro y hy
  rcases exists_of_mem_insert h hbefore hnew hmoved hy with ⟨x, hx, heq⟩ | ⟨t, heq⟩
  . rw [heq]
    exact hmove x hx
  . have hrow : row ∈ before ++ row :: after := by simp
    have hne := h.ne_nil row hrow
    have hlast := hmove row hrow
    rw [Label.moveFrom_add_self, enclosed_addLast_iff hne] at hlast
    rw [heq, enclosed_addLast_iff hne]
    exact hlast

theorem Arranged.insert : Arranged (before' ++ new ++ moved) := by
  have hrow : row ∈ before ++ row :: after := by simp
  have hbase : ∃ y ∈ before' ++ new ++ moved, y.label = row.label := by
    cases hn : new with
    | nil =>
      obtain ⟨y, hy, heq⟩ := exists_image_insert h hbefore hmoved hrow
      refine ⟨y, hn ▸ hy, ?_⟩
      rw [heq, hn, List.length_nil, Label.moveFrom_add_zero]
    | cons first rest =>
      refine ⟨first, by simp, ?_⟩
      rw [hnew 0 first (by rw [hn]; rfl), Label.addLast_zero]
  refine ⟨ordered_insert h hbefore hnew hmoved, ?_, ?_⟩
  . apply Enclosed.insert h hbefore hnew hmoved h.rooted
    . intro _ _ _
      obtain ⟨y, hy, heq⟩ := hbase
      exact ⟨y, hy, heq, trivial⟩
    . intro x hx _ _
      obtain ⟨y, hy, heq⟩ := exists_image_insert h hbefore hmoved hx
      exact ⟨y, hy, heq, trivial⟩
  . intro y hy
    rcases exists_of_mem_insert h hbefore hnew hmoved hy with ⟨x, hx, heq⟩ | ⟨t, heq⟩
    . rw [heq]
      simpa using h.ne_nil x hx
    . rw [heq, ← Label.moveFrom_add_self]
      simpa using h.ne_nil row hrow

end Insert

section Room

variable {rows : List Row} (h : Roomy rows)
include h

theorem Roomy.label_makeRoom {k : Nat} (hk : k ≤ 2) (base : Label) {r : Row} (hr : r ∈ rows) :
    (makeRoom base k r).label = Label.moveFrom (· + k) base r.label := by
  unfold makeRoom
  split
  . apply Label.shift_ofNat
    rw [Label.shift_eq_moveFrom]
    apply Label.forall_parts_moveFrom
    intro m hm
    have := h r hr m hm
    unfold Label.movePart
    omega
  . next hzero =>
    have : k = 0 := by omega
    rw [this, Label.moveFrom_add_zero]

theorem Roomy.label_newGoals {row r : Row} {stamp source : Stamp} {goals : List Formula}
    {new : List Row} {t : Nat} (hrow : row ∈ rows) (hlen : new.length ≤ 2)
    (hnew : NewGoals row.label stamp source goals new) (hr : new[t]? = some r) :
    r.label = row.label.addLast t := by
  obtain ⟨goal, -, rfl⟩ := hnew t r hr
  have ht := (List.getElem?_eq_some_iff.mp hr).1
  apply Label.moveLast_ofNat
  apply Label.forall_parts_moveLast
  intro m hm
  have := h row hrow m hm
  unfold Label.movePart
  omega

end Room

section Moved

variable {before after : List Row} {row : Row} (hroomy : Roomy (before ++ row :: after)) {k : Nat}
  (hk : k ≤ 2)
include hroomy hk

theorem Roomy.map_label_makeRoom :
    ((row :: after).map (makeRoom row.label k)).map Row.label
      =
    (row :: after).map fun r => Label.moveFrom (· + k) row.label r.label := by
  rw [List.map_map]
  apply List.map_congr_left
  intro r hr
  exact hroomy.label_makeRoom hk row.label (List.mem_append_right _ hr)

theorem Roomy.exists_image_makeRoom (h : Ordered (before ++ row :: after)) {x : Row}
    (hx : x ∈ before ++ row :: after) (hlabel : x.label ≠ row.label) :
    ∃ y ∈ before ++ after.map (makeRoom row.label k),
      y.label = Label.moveFrom (· + k) row.label x.label
        ∧ y.line.step.rule = x.line.step.rule := by
  have hlabel' := hroomy.label_makeRoom hk row.label hx
  simp only [List.mem_append, List.mem_cons] at hx
  rcases hx with hx | rfl | hx
  . refine ⟨x, List.mem_append_left _ hx, ?_, rfl⟩
    rw [Label.moveFrom_of_before _ (h.before_of_mem_left hx)]
  . exact absurd rfl hlabel
  . refine ⟨makeRoom row.label k x, List.mem_append_right _ (List.mem_map_of_mem hx), hlabel', ?_⟩
    exact congrArg (·.step.rule) (bare_makeRoom row.label k x)

end Moved

def supplied (before new after : List Row) (row : Row) (arguments : List (Option Label)) :
    List Row :=
  before ++ new ++ ⟨(makeRoom row.label new.length row).label, { row.line with arguments }⟩
    :: after.map (makeRoom row.label new.length)

section Supply

variable {before new after : List Row} {row : Row} (hroomy : Roomy (before ++ row :: after))
  (hlen : new.length ≤ 2) (h : Arranged (before ++ row :: after)) (arguments : List (Option Label))
include hroomy hlen h

theorem Arranged.supplied
    (hnew : ∀ (t : Nat) (r : Row), new[t]? = some r → r.label = row.label.addLast t) :
    Arranged (supplied before new after row arguments) :=
  h.insert rfl hnew (hroomy.map_label_makeRoom hlen)

theorem Standing.supplied_moveFrom {l : Label} (hl : l.isInside row.label = false)
    (hstanding : Standing (before ++ row :: after) l) :
    Standing (supplied before new after row arguments)
      (Label.moveFrom (· + new.length) row.label l) := by
  apply hstanding.moveFrom
  . simp [hl]
  . intro x hx hlabel hrule
    obtain ⟨y, hy, hmove, hsame⟩ := hroomy.exists_image_makeRoom hlen h.ordered hx hlabel
    refine ⟨y, ?_, hmove, hsame ▸ hrule⟩
    simp only [Derivation.supplied, List.mem_append, List.mem_cons] at hy ⊢
    tauto

theorem Standing.supplied (hstanding : Standing (before ++ row :: after) row.label) :
    Standing (supplied before new after row arguments) row.label := by
  have hne := h.ne_nil row (by simp)
  apply (enclosed_addLast_iff (k := new.length) hne).mp
  rw [← Label.moveFrom_add_self]
  exact hstanding.supplied_moveFrom hroomy hlen h arguments (Label.isInside_irrefl _)

end Supply

end ProofDesk.Derivation
