import Mathlib.Data.List.Perm.Subperm
import ProofDesk.Proofs.Prune

/-!
This module contains which rows pruning can drop, whatever the first row is: those before a row that
is no direct proof and less deep than all of them. If every subproof has a closing line, these are
rows inside of such a row, so a row that only direct proofs close off stays.
-/

namespace ProofDesk.Derivation

def Abandoned (rows : List Row) (row : Row) : Prop :=
  ∃ before inner header after, rows = before ++ row :: (inner ++ header :: after)
    ∧ header.line.step.rule ≠ some .directProof
    ∧ ∀ r ∈ row :: inner, header.label.depth < r.label.depth

theorem Abandoned.cons {rows : List Row} {row : Row} (h : Abandoned rows row) (first : Row) :
    Abandoned (first :: rows) row := by
  obtain ⟨before, inner, header, after, rfl, hrule, hdeep⟩ := h
  exact ⟨first :: before, inner, header, after, rfl, hrule, hdeep⟩

variable {rows : List Row}

theorem abandoned_of_mem_sift {row : Row} (h : row ∈ sift true rows) : Abandoned rows row := by
  induction rows with
  | nil => simp at h
  | cons first rows ih =>
    rw [sift_cons] at h
    rcases List.mem_append.mp h with hhere | hlater
    . split at hhere
      . next hcut =>
        obtain ⟨inner, header, after, rfl, hrule, hdeep⟩ := of_decide_eq_true hcut
        rw [List.mem_singleton.mp hhere]
        exact ⟨[], inner, header, after, rfl, hrule, hdeep⟩
      . simp at hhere
    . exact (ih hlater).cons first

theorem exists_prune_eq_of_depth_pos (hdepth : ∀ row ∈ rows, 0 < row.label.depth) :
    ∃ (kept : List Row) (dropped : List Label), prune rows = kept.map (forgetAll dropped)
      ∧ kept.Sublist rows
      ∧ (∀ row ∈ rows, row ∈ kept ∨ row.label ∈ dropped)
      ∧ ∀ l ∈ dropped, ∃ row ∈ rows, row.label = l ∧ Abandoned rows row := by
  cases rows with
  | nil => exact ⟨[], [], rfl, List.Sublist.refl _, by simp, by simp⟩
  | cons first rows =>
    rw [List.forall_mem_cons] at hdepth
    refine ⟨_, _, prune_cons_eq hdepth.2, (sift_sublist false rows).cons_cons first, ?_, ?_⟩
    . intro row hrow
      rcases List.mem_cons.mp hrow with rfl | hrow
      . exact .inl List.mem_cons_self
      . rcases List.mem_append.mp ((sift_perm rows).mem_iff.mpr hrow) with hrow | hrow
        . exact .inr (List.mem_map_of_mem hrow)
        . exact .inl (List.mem_cons_of_mem _ hrow)
    . intro l hl
      obtain ⟨row, hrow, rfl⟩ := List.mem_map.mp hl
      have hmem := (sift_sublist true rows).subset hrow
      exact ⟨row, List.mem_cons_of_mem _ hmem, rfl, (abandoned_of_mem_sift hrow).cons first⟩

def Enclosed (closing : Option Rule → Prop) (rows : List Row) (l : Label) : Prop :=
  ∀ h : Label, l.isInside h → h.parts ≠ [] →
    ∃ row ∈ rows, row.label = h ∧ closing row.line.step.rule

def Rooted (rows : List Row) : Prop :=
  ∀ row ∈ rows, Enclosed (fun _ => True) rows row.label

def Standing (rows : List Row) (l : Label) : Prop :=
  Enclosed (· = some .directProof) rows l

structure Arranged (rows : List Row) : Prop where
  ordered : Ordered rows
  rooted : Rooted rows
  ne_nil : ∀ row ∈ rows, row.label.parts ≠ []

theorem Ordered.eq_of_sublist_of_subset {kept : List Row} (h : Ordered rows)
    (hsub : kept.Sublist rows) (hsubset : rows ⊆ kept) : kept = rows := by
  have hnodup : rows.Nodup := by
    apply h.imp
    rintro a b hab rfl
    simp [Label.before_irrefl] at hab
  exact hsub.eq_of_length_le (hnodup.subperm hsubset).length_le

namespace Arranged

variable (h : Arranged rows)
include h

theorem of_labels {rows' : List Row} (hlabels : rows'.map Row.label = rows.map Row.label) :
    Arranged rows' := by
  refine ⟨?_, ?_, ?_⟩
  . rw [ordered_iff_labels, hlabels, ← ordered_iff_labels]
    exact h.ordered
  . intro y hy header hin hne
    obtain ⟨x, hx, heq⟩ := exists_of_mem_of_labels hlabels hy
    rw [← heq] at hin
    obtain ⟨z, hz, rfl, -⟩ := h.rooted x hx header hin hne
    obtain ⟨r, hr, hlabel⟩ := exists_of_mem_of_labels hlabels.symm hz
    exact ⟨r, hr, hlabel, trivial⟩
  . intro y hy
    obtain ⟨x, hx, heq⟩ := exists_of_mem_of_labels hlabels hy
    rw [← heq]
    exact h.ne_nil x hx

theorem exists_isInside_of_abandoned {row : Row} (habandoned : Abandoned rows row) :
    ∃ header ∈ rows, header.line.step.rule ≠ some .directProof
      ∧ row.label.isInside header.label := by
  obtain ⟨before, inner, header, after, rfl, hrule, hdeep⟩ := habandoned
  have hheader : header ∈ before ++ row :: (inner ++ header :: after) := by simp
  refine ⟨header, hheader, hrule, ?_⟩
  obtain ⟨above, hin, hdepth⟩ := Label.exists_isInside_of_lt_depth (hdeep row List.mem_cons_self)
  have hbefore : row.label.before header.label := h.ordered.before_of_mem_right (by simp)
  rcases Label.before_or_eq_or_before above header.label with hlt | heq | hgt
  . -- The closing line of that subproof would stand between `row` and `header`.
    have hne : above.parts ≠ [] := by
      have := h.ne_nil header hheader
      rw [← List.length_pos_iff] at this ⊢
      unfold Label.depth at hdepth
      omega
    obtain ⟨r, hr, rfl, -⟩ := h.rooted row (by simp) above hin hne
    have hr := h.ordered.mem_of_between hr (Label.before_of_isInside hin) hlt
    have := hdeep r (List.mem_cons_of_mem _ hr)
    omega
  . exact heq ▸ hin
  . have := Label.depth_lt_of_isInside (Label.isInside_of_before_of_before hin hbefore hgt)
    omega

theorem exists_prune_eq :
    ∃ (kept : List Row) (dropped : List Label), prune rows = kept.map (forgetAll dropped)
      ∧ kept.Sublist rows
      ∧ (∀ row ∈ rows, row ∈ kept ∨ row.label ∈ dropped)
      ∧ ∀ l ∈ dropped, (∃ row ∈ rows, row.label = l) ∧ ¬ Standing rows l := by
  have hdepth : ∀ row ∈ rows, 0 < row.label.depth := by
    intro row hrow
    exact List.length_pos_of_ne_nil (h.ne_nil row hrow)
  obtain ⟨kept, dropped, heq, hsub, hall, hdropped⟩ := exists_prune_eq_of_depth_pos hdepth
  refine ⟨kept, dropped, heq, hsub, hall, ?_⟩
  intro l hl
  obtain ⟨row, hrow, rfl, habandoned⟩ := hdropped l hl
  refine ⟨⟨row, hrow, rfl⟩, ?_⟩
  intro hstanding
  obtain ⟨header, hheader, hrule, hin⟩ := h.exists_isInside_of_abandoned habandoned
  obtain ⟨closing, hclosing, heq, hdp⟩ := hstanding _ hin (h.ne_nil header hheader)
  obtain rfl := h.ordered.eq_of_label_eq hclosing hheader heq
  exact hrule hdp

theorem ordered_prune : Ordered (prune rows) := by
  obtain ⟨kept, dropped, heq, hsub, -, -⟩ := h.exists_prune_eq
  have hlabels : (prune rows).map Row.label = kept.map Row.label := by
    rw [heq, List.map_map]
    apply List.map_congr_left
    intro row _
    rw [Function.comp_apply, forgetAll_eq]
  rw [ordered_iff_labels, hlabels, ← ordered_iff_labels]
  exact h.ordered.sublist hsub

theorem exists_mem_prune :
    ∃ dropped : List Label, (∀ row ∈ rows, Standing rows row.label →
        forgetAll dropped row ∈ prune rows)
      ∧ ∀ l ∈ dropped, ¬ Standing rows l := by
  obtain ⟨kept, dropped, heq, -, hall, hdropped⟩ := h.exists_prune_eq
  refine ⟨dropped, ?_, fun l hl => (hdropped l hl).2⟩
  intro row hrow hstanding
  rw [heq]
  apply List.mem_map_of_mem
  exact (hall row hrow).resolve_right fun hmem => (hdropped _ hmem).2 hstanding

theorem prune_eq_self (hstanding : ∀ row ∈ rows, Standing rows row.label) : prune rows = rows := by
  obtain ⟨kept, dropped, heq, hsub, hall, hdropped⟩ := h.exists_prune_eq
  have hnil : dropped = [] := by
    rw [List.eq_nil_iff_forall_not_mem]
    intro l hl
    obtain ⟨⟨row, hrow, rfl⟩, hnot⟩ := hdropped l hl
    exact hnot (hstanding row hrow)
  subst hnil
  have hsubset : rows ⊆ kept := fun row hrow => by simpa using hall row hrow
  rw [heq, h.ordered.eq_of_sublist_of_subset hsub hsubset]
  exact List.map_id rows

end Arranged

end ProofDesk.Derivation
