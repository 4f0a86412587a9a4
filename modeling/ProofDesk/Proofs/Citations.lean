import ProofDesk.Proofs.Label.Text
import ProofDesk.Proofs.Revision

/-!
This module contains what citations name. Rows are told apart by their labels, and all labels from
some place on change when rows are put in there or a row is taken out. Afterwards every citation
names the row that it named before, unless that row is gone.
-/

namespace ProofDesk

namespace Label

variable {l pos : Label} {k t : Nat}

theorem le_of_mem_addLast {b : Nat} (ht : t ≤ k) (h : ∀ n ∈ (pos.addLast k).parts, n ≤ b) :
    ∀ n ∈ (pos.addLast t).parts, n ≤ b := by
  obtain ⟨ns⟩ := pos
  induction ns with
  | nil => exact h
  | cons n ns ih =>
    cases ns with
    | nil =>
      simp only [addLast_singleton, List.mem_singleton, forall_eq] at *
      omega
    | cons n' ns =>
      simp only [addLast_cons_cons, List.forall_mem_cons] at *
      exact ⟨h.1, ih h.2⟩

end Label

namespace Derivation

def Names (rows : List Row) (label : Label) (j : Nat) : Prop :=
  ∃ row, rows[j]? = some row ∧ row.label = label

structure Legible (rows : List Row) : Prop where
  ordered : Ordered rows
  proper : ∀ row ∈ rows, row.label.Proper
  earlier : ∀ (k : Nat) (row : Row), rows[k]? = some row →
    ∀ label, some label ∈ row.line.arguments → ∃ j < k, Names rows label j

variable {rows rows' : List Row} {row : Row}

theorem Laid.legible (h : Laid rows) : Legible rows := by
  refine ⟨h.ordered, ?_, ?_⟩
  . intro row hrow
    exact (h.valid row hrow).mono (Nat.sub_le ..)
  . intro k row hrow label hlabel
    have hmem := List.mem_of_getElem? hrow
    obtain ⟨⟨r, hr, rfl⟩, -⟩ := h.anchored row hmem label hlabel
    obtain ⟨j, hj⟩ := List.getElem?_of_mem hr
    exact ⟨j, h.ordered.lt_of_before hj hrow (h.before_of_cited hmem hlabel), r, hj, rfl⟩

def Backed (rows : List Row) : Prop :=
  ∀ row ∈ rows, ∀ label, some label ∈ row.line.arguments →
    ∃ r ∈ rows, r.label = label ∧ r.label.before row.label

namespace Legible

variable (h : Legible rows)
include h

theorem backed : Backed rows := by
  intro row hrow label hlabel
  obtain ⟨k, hk⟩ := List.getElem?_of_mem hrow
  obtain ⟨j, hlt, r, hr, heq⟩ := h.earlier k row hk label hlabel
  exact ⟨r, List.mem_of_getElem? hr, heq, h.ordered.before_of_lt hr hk hlt⟩

theorem shift_neg_one (pos : Label) :
    ∀ r ∈ rows, r.label.shift pos (-1) = Label.moveFrom (· - 1) pos r.label :=
  fun r hr => Label.shift_neg_one fun n hn => ((h.proper r hr).2 n hn).2

end Legible

namespace Backed

variable (h : Backed rows) {pos : Label} {f : Nat → Nat} {delta : Int} (dropped : List Label)
include h

theorem relabel_moveFrom_eq_self (hrow : row ∈ rows) (hbefore : row.label.before pos) :
    relabel (Label.moveFrom f pos) (forgetAll dropped row) = forgetAll dropped row := by
  apply relabel_eq_self
  . rw [label_forgetAll, Label.moveFrom_of_before f hbefore]
  . intro label hlabel
    obtain ⟨r, -, rfl, hcited⟩ := h row hrow label (mem_arguments_forgetAll hlabel).1
    exact Label.moveFrom_of_before f (Label.before_trans hcited hbefore)

variable (hshift : ∀ r ∈ rows, r.label.shift pos delta = Label.moveFrom f pos r.label)
include hshift

theorem shift_forgetAll_eq (hrow : row ∈ rows) :
    (forgetAll dropped row).shift pos delta
      =
    relabel (Label.moveFrom f pos) (forgetAll dropped row) := by
  rw [shift_eq_relabel]
  apply relabel_congr
  . rw [label_forgetAll, hshift row hrow]
  . intro label hlabel
    obtain ⟨r, hr, rfl, -⟩ := h row hrow label (mem_arguments_forgetAll hlabel).1
    exact hshift r hr

theorem map_relabel_eq {before after : List Row}
    (hbefore : ∀ x ∈ before, x ∈ rows ∧ x.label.before pos) (hafter : ∀ x ∈ after, x ∈ rows) :
    (before ++ after).map (fun x => relabel (Label.moveFrom f pos) (forgetAll dropped x))
      =
    before.map (forgetAll dropped) ++ after.map fun x => (forgetAll dropped x).shift pos delta := by
  rw [List.map_append]
  congr 1
  . apply List.map_congr_left
    intro x hx
    exact h.relabel_moveFrom_eq_self dropped (hbefore x hx).1 (hbefore x hx).2
  . apply List.map_congr_left
    intro x hx
    exact (h.shift_forgetAll_eq dropped hshift (hafter x hx)).symm

end Backed

theorem Backed.removeRow_eq_map {before after : List Row} (h : Backed (before ++ row :: after))
    (hordered : Ordered (before ++ row :: after))
    (hshift : ∀ r ∈ before ++ row :: after,
      r.label.shift row.label (-1) = Label.moveFrom (· - 1) row.label r.label) :
    removeRow (before ++ row :: after) before.length
      =
    (before ++ after).map fun x =>
      relabel (Label.moveFrom (· - 1) row.label) (forgetAll [row.label] x) := by
  rw [removeRow_split]
  refine (h.map_relabel_eq [row.label] hshift ?_ ?_).symm
  . exact fun x hx => ⟨List.mem_append_left _ hx, hordered.before_of_mem_left hx⟩
  . exact fun x hx => List.mem_append_right _ (List.mem_cons_of_mem _ hx)

/--
What a citation becomes if it tracks the row that it names to the index `place j`, and is unset
if the row goes nowhere.
-/
inductive Tracks (place : Nat → Option Nat) (rows rows' : List Row) :
    Option Label → Option Label → Prop where
  | unset : Tracks place rows rows' none none
  | gone (label : Label) (j : Nat) (hnames : Names rows label j) (hplace : place j = none) :
      Tracks place rows rows' (some label) none
  | moved (label label' : Label) (j j' : Nat) (hnames : Names rows label j)
      (hplace : place j = some j') (hnames' : Names rows' label' j') :
      Tracks place rows rows' (some label) (some label')

/--
Rows in order again, among which each row is found at its new place, and its citations track the
rows that they name.
-/
structure Transfers (place : Nat → Option Nat) (rows rows' : List Row) : Prop where
  ordered : Ordered rows'
  proper : ∀ row ∈ rows', row.label.Proper
  kept : ∀ (j j' : Nat) (row : Row), rows[j]? = some row → place j = some j' →
    ∃ row', rows'[j']? = some row' ∧ bare row' = bare row
      ∧ List.Forall₂ (Tracks place rows rows') row.line.arguments row'.line.arguments

@[simp]
theorem bare_relabel (rename : Label → Label) (row : Row) :
    bare (relabel rename row) = bare row := by
  simp [bare, relabel]

@[simp]
theorem forgetAll_nil : forgetAll [] = id := by
  rfl

theorem Legible.transfers (h : Legible rows) {place : Nat → Option Nat} (rename : Label → Label)
    (dropped : List Label) (hordered : Ordered rows') (hproper : ∀ row ∈ rows', row.label.Proper)
    (hdropped : ∀ j row, rows[j]? = some row → (row.label ∈ dropped ↔ place j = none))
    (hkept : ∀ j j' row, rows[j]? = some row → place j = some j' →
      rows'[j']? = some (relabel rename (forgetAll dropped row))) :
    Transfers place rows rows' := by
  refine ⟨hordered, hproper, ?_⟩
  intro j j' row hrow hplace
  refine ⟨_, hkept j j' row hrow hplace, by simp, ?_⟩
  simp only [relabel, forgetAll_eq, List.map_map]
  rw [List.forall₂_map_right_iff, List.forall₂_same]
  intro arg harg
  cases arg with
  | none => exact .unset
  | some label =>
    -- The citation goes where the row goes that it names.
    obtain ⟨k, -, r, hr, rfl⟩ := h.earlier j row hrow label harg
    cases hk : place k with
    | none =>
      have hmem := (hdropped k r hr).mpr hk
      rw [Function.comp_apply, Option.filter_some_neg (by simpa using hmem)]
      exact .gone r.label k ⟨r, hr, rfl⟩ hk
    | some k' =>
      have hmem : r.label ∉ dropped := by
        rw [hdropped k r hr, hk]
        simp
      rw [Function.comp_apply, Option.filter_some_pos (by simpa using hmem)]
      refine .moved r.label (rename r.label) k k' ⟨r, hr, rfl⟩ hk ⟨_, hkept k k' r hr hk, ?_⟩
      simp [relabel]

def placeInserted (i n j : Nat) : Option Nat :=
  some (if j < i then j else j + n)

def placeRemoved (i j : Nat) : Option Nat :=
  if j < i then some j else if j = i then none else some (j - 1)

theorem placeRemoved_eq_none_iff {i j : Nat} : placeRemoved i j = none ↔ j = i := by
  unfold placeRemoved
  grind

theorem getElem?_placeInserted (before new after : List Row) {j j' : Nat}
    (hplace : placeInserted before.length new.length j = some j') :
    (before ++ new ++ after)[j']? = (before ++ after)[j]? := by
  grind [placeInserted]

theorem getElem?_placeRemoved (before after : List Row) (row : Row) {j j' : Nat}
    (hplace : placeRemoved before.length j = some j') :
    (before ++ after)[j']? = (before ++ row :: after)[j]? := by
  grind [placeRemoved]

theorem Ordered.insert_moveFrom {before after new : List Row} {row : Row} {move : Row → Row}
    (h : Ordered (before ++ row :: after)) (hne : row.label.parts ≠ [])
    (hnew : ∀ (t : Nat) (r : Row), new[t]? = some r → r.label = row.label.addLast t)
    (hmove : ∀ r ∈ row :: after,
      (move r).label = Label.moveFrom (· + new.length) row.label r.label) :
    Ordered (before ++ new ++ (row :: after).map move) := by
  have hmem : ∀ r ∈ new, ∃ t < new.length, r.label = row.label.addLast t := by
    intro r hr
    obtain ⟨t, ht⟩ := List.getElem?_of_mem hr
    exact ⟨t, (List.getElem?_eq_some_iff.mp ht).1, hnew t r ht⟩
  have hnew' : Ordered new := by
    apply List.pairwise_iff_getElem.mpr
    intro s t hs ht hst
    rw [hnew s _ (List.getElem?_eq_getElem hs), hnew t _ (List.getElem?_eq_getElem ht)]
    exact Label.addLast_before_addLast hne hst
  obtain ⟨hbefore, hrest, hacross⟩ := List.pairwise_append.mp h
  have hrest' : Ordered ((row :: after).map move) := by
    rw [Ordered, List.pairwise_map]
    apply hrest.imp_of_mem
    intro a b ha hb hab
    rw [hmove a ha, hmove b hb]
    exact Label.moveFrom_add_before _ hab
  refine List.pairwise_append.mpr ⟨List.pairwise_append.mpr ⟨hbefore, hnew', ?_⟩, hrest', ?_⟩
  . intro a ha b hb
    obtain ⟨t, -, hb⟩ := hmem b hb
    rw [hb]
    exact Label.before_addLast (h.before_of_mem_left ha)
  . intro a ha b hb
    obtain ⟨r, hr, rfl⟩ := List.mem_map.mp hb
    rw [hmove r hr]
    cases List.mem_append.mp ha with
    | inl ha =>
      rw [← Label.moveFrom_of_before (· + new.length) (h.before_of_mem_left ha)]
      exact Label.moveFrom_add_before _ (hacross a ha r hr)
    | inr ha =>
      obtain ⟨t, ht, ha⟩ := hmem a ha
      rw [ha]
      cases List.mem_cons.mp hr with
      | inl hr =>
        rw [hr, Label.moveFrom_add_self]
        exact Label.addLast_before_addLast hne ht
      | inr hr => exact Label.addLast_before_moveFrom (h.before_of_mem_right hr) ht

section Insert

variable {before after new : List Row} (h : Legible (before ++ row :: after))
  (hnew : ∀ (t : Nat) (r : Row), new[t]? = some r → r.label = row.label.moveLast t)
  (hrange : ∀ r ∈ before ++ row :: after,
    ∀ n ∈ (Label.moveFrom (· + new.length) row.label r.label).parts, n ≤ Label.maxPart)
include hrange

include hnew in
theorem label_inserted {t : Nat} {r : Row} (hr : new[t]? = some r) :
    r.label = row.label.addLast t ∧ ∀ n ∈ (row.label.addLast t).parts, n ≤ Label.maxPart := by
  have ht := (List.getElem?_eq_some_iff.mp hr).1
  have hself := hrange row (by simp)
  rw [Label.moveFrom_add_self] at hself
  have hle := Label.le_of_mem_addLast (Nat.le_of_lt ht) hself
  exact ⟨(hnew t r hr).trans (Label.moveLast_of_le hle), hle⟩

include h

include hnew in
theorem proper_inserted {r : Row}
    (hr : r ∈ before ++ new ++ (row :: after).map (Row.shift row.label new.length)) :
    r.label.Proper := by
  rw [List.append_assoc, List.mem_append, List.mem_append] at hr
  rcases hr with hr | hr | hr
  . exact h.proper r (List.mem_append_left _ hr)
  . obtain ⟨t, ht⟩ := List.getElem?_of_mem hr
    obtain ⟨hlabel, hle⟩ := label_inserted hnew hrange ht
    rw [← Label.moveFrom_add_self] at hlabel hle
    rw [hlabel]
    exact (h.proper row (by simp)).moveFrom_add _ hle
  . obtain ⟨old, hold, rfl⟩ := List.mem_map.mp hr
    have hold := List.mem_append_right before hold
    change (old.label.shift row.label new.length).Proper
    rw [Label.shift_of_le (hrange old hold)]
    exact (h.proper old hold).moveFrom_add _ (hrange old hold)

include hnew in
theorem transfers_insert :
    Transfers (placeInserted before.length new.length) (before ++ row :: after)
      (before ++ new ++ (row :: after).map (Row.shift row.label new.length)) := by
  have hmap := h.backed.map_relabel_eq [] (fun r hr => Label.shift_of_le (hrange r hr))
    (fun x hx => ⟨List.mem_append_left _ hx, h.ordered.before_of_mem_left hx⟩)
    (fun x hx => List.mem_append_right before hx)
  simp only [forgetAll_nil, id_eq, List.map_id] at hmap
  refine h.transfers (Label.moveFrom (· + new.length) row.label) [] ?_ ?_ ?_ ?_
  . refine h.ordered.insert_moveFrom (h.proper row (by simp)).1 ?_ ?_
    . exact fun t r hr => (label_inserted hnew hrange hr).1
    . exact fun r hr => Label.shift_of_le (hrange r (List.mem_append_right _ hr))
  . exact fun r hr => proper_inserted h hnew hrange hr
  . simp [placeInserted]
  . intro j j' r hr hplace
    rw [getElem?_placeInserted _ _ _ (by simpa using hplace), ← hmap, List.getElem?_map, hr]
    rfl

end Insert

section Remove

variable {before after : List Row} (h : Legible (before ++ row :: after))
include h

theorem transfers_removeRow
    (hinside : ∀ r ∈ before ++ row :: after, r.label.isInside row.label = false) :
    Transfers (placeRemoved before.length) (before ++ row :: after)
      (removeRow (before ++ row :: after) before.length) := by
  have hsub : (before ++ after).Sublist (before ++ row :: after) :=
    (List.sublist_cons_self ..).append_left _
  have hne : ∀ r ∈ before ++ after, r.label ≠ row.label :=
    fun r hr => h.ordered.label_ne_of_mem hr
  rw [h.backed.removeRow_eq_map h.ordered (h.shift_neg_one row.label)]
  refine h.transfers (Label.moveFrom (· - 1) row.label) [row.label] ?_ ?_ ?_ ?_
  . rw [Ordered, List.pairwise_map]
    apply (h.ordered.sublist hsub).imp_of_mem
    intro a b ha hb hab
    simp only [relabel, label_forgetAll]
    -- Labels can only clash with those inside the label that is given up, and there are none.
    refine Label.moveFrom_pred_before (hne a ha) (hne b hb) ?_ hab
    simp [hinside a (hsub.subset ha)]
  . rw [List.forall_mem_map]
    intro r hr
    simp only [relabel, label_forgetAll]
    exact (h.proper row (by simp)).moveFrom_pred (h.proper r (hsub.subset hr)) (hne r hr)
  . intro j r hr
    rw [List.mem_singleton, placeRemoved_eq_none_iff]
    exact h.ordered.label_eq_iff hr (getElem?_split row)
  . intro j j' r hr hplace
    rw [List.getElem?_map, getElem?_placeRemoved _ _ row hplace, hr]
    rfl

end Remove

theorem transfers_shiftFrom_and_removeRow (rows : List Row) (i : Nat) (row : Row)
    (h : Legible rows) (hrow : rows[i]? = some row) :
    (∀ new : List Row,
      (∀ (t : Nat) (r : Row), new[t]? = some r → r.label = row.label.moveLast t) →
      (∀ r ∈ rows, ∀ n ∈ (Label.moveFrom (· + new.length) row.label r.label).parts,
        n ≤ Label.maxPart) →
      Transfers (placeInserted i new.length) rows
        (shiftFrom row.label (i + new.length) new.length (rows.take i ++ new ++ rows.drop i)))
      ∧
    ((∀ r ∈ rows, r.label.isInside row.label = false) →
      Transfers (placeRemoved i) rows (removeRow rows i)) := by
  obtain ⟨before, after, rfl, rfl⟩ := exists_split_of_getElem? hrow
  constructor
  . intro new hnew hrange
    have hlen : before.length + new.length = (before ++ new).length := by rw [List.length_append]
    rw [List.take_left, List.drop_left, shiftFrom, hlen, List.take_left, List.drop_left]
    exact transfers_insert h hnew hrange
  . exact transfers_removeRow h

def nestedRows : List Row :=
  let line (arguments : List (Option Label)) : Line :=
    { Line.new (.const true) ⟨0⟩ (.unknown .forward) true true with arguments }
  [⟨⟨[1]⟩, line []⟩,
    ⟨⟨[2, 1]⟩, line []⟩,
    ⟨⟨[2, 2]⟩, line [some ⟨[2, 1]⟩, some ⟨[1]⟩]⟩,
    ⟨⟨[2]⟩, line [some ⟨[2, 1]⟩, some ⟨[2, 2]⟩]⟩,
    ⟨⟨[3]⟩, line [some ⟨[2]⟩, none]⟩]

theorem nestedRows_transfers :
    Legible nestedRows
      ∧ Transfers (placeInserted 1 1) nestedRows
        (shiftFrom ⟨[2, 1]⟩ 2 1
          (nestedRows.take 1 ++ [⟨⟨[2, 1]⟩, goalLine (.const true) ⟨1⟩ ⟨0⟩⟩] ++ nestedRows.drop 1))
      ∧ Transfers (placeRemoved 1) nestedRows (removeRow nestedRows 1)
      ∧ (removeRow nestedRows 1).map (fun row => (row.label.parts, row.line.arguments))
        = [([1], []), ([2, 1], [none, some ⟨[1]⟩]), ([2], [none, some ⟨[2, 1]⟩]),
          ([3], [some ⟨[2]⟩, none])] := by
  have hearlier : ∀ k : Fin nestedRows.length, ∀ arg ∈ (nestedRows.get k).line.arguments,
      ∀ label ∈ arg, ∃ j < k, (nestedRows.get j).label = label := by
    decide
  have h : Legible nestedRows := by
    refine ⟨by decide, by decide, ?_⟩
    intro k row hrow label hlabel
    obtain ⟨hk, rfl⟩ := List.getElem?_eq_some_iff.mp hrow
    obtain ⟨j, hlt, heq⟩ := hearlier ⟨k, hk⟩ _ hlabel label rfl
    exact ⟨j, hlt, _, List.getElem?_eq_getElem j.2, heq⟩
  obtain ⟨hinsert, hremove⟩ := transfers_shiftFrom_and_removeRow nestedRows 1 _ h rfl
  refine ⟨h, hinsert [_] ?_ (by decide), hremove (by decide), by decide⟩
  intro t r hr
  rw [List.getElem?_singleton] at hr
  split at hr
  . next ht =>
    rw [ht, ← Option.some.inj hr]
    rfl
  . simp at hr

end Derivation

end ProofDesk
