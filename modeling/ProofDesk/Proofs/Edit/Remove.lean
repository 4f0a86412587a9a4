import Mathlib.Data.List.InsertIdx
import ProofDesk.Derivation.Update
import ProofDesk.Proofs.Prune

/-!
This module contains what taking out rows leaves of the others: everything but their labels and
citations.
-/

namespace ProofDesk.Derivation

def bare (row : Row) : Line :=
  { row.line with arguments := List.replicate row.line.arguments.length none }

@[simp]
theorem bare_shift (pos : Label) (delta : Int) (row : Row) :
    bare (row.shift pos delta) = bare row := by
  simp [bare, Row.shift]

@[simp]
theorem bare_forget (label : Label) (row : Row) : bare (row.forget label) = bare row := by
  simp [bare, Row.forget]

@[simp]
theorem bare_forgetAll (labels : List Label) (row : Row) :
    bare (forgetAll labels row) = bare row := by
  simp [bare, forgetAll_eq]

def closeUp (label : Label) (row : Row) : Row :=
  (row.forget label).shift label (-1)

@[simp]
theorem bare_closeUp (label : Label) (row : Row) : bare (closeUp label row) = bare row := by
  simp [closeUp]

theorem removeRow_split (before after : List Row) (row : Row) :
    removeRow (before ++ row :: after) before.length
      =
    before.map (Row.forget row.label) ++ after.map (closeUp row.label) := by
  have hlen : (before.map (Row.forget row.label)).length = before.length := List.length_map ..
  unfold removeRow
  rw [getElem?_split]
  dsimp only
  rw [eraseIdx_split, List.map_append, shiftFrom, ← hlen, List.take_left, List.drop_left,
    List.map_map]
  rfl

theorem map_bare_eq {f : Row → Row} (h : ∀ row, bare (f row) = bare row) (rows : List Row) :
    (rows.map f).map bare = rows.map bare := by
  rw [List.map_map]
  exact List.map_congr_left fun row _ => h row

theorem map_bare_removeRow_split (before after : List Row) (row : Row) :
    (removeRow (before ++ row :: after) before.length).map bare
      =
    before.map bare ++ after.map bare := by
  rw [removeRow_split, List.map_append, map_bare_eq (bare_forget _), map_bare_eq (bare_closeUp _)]

theorem map_bare_removeRow (rows : List Row) (i : Nat) :
    (removeRow rows i).map bare = (rows.map bare).eraseIdx i := by
  cases hrow : rows[i]? with
  | none =>
    have hlen := List.getElem?_eq_none_iff.mp hrow
    have hsame : removeRow rows i = rows := by
      unfold removeRow
      rw [hrow]
    rw [hsame, List.eraseIdx_of_length_le (by simpa using hlen)]
  | some row =>
    obtain ⟨before, after, rfl, rfl⟩ := exists_split_of_getElem? hrow
    rw [map_bare_removeRow_split, List.map_append, List.map_cons]
    have hlen : before.length = (before.map bare).length := by rw [List.length_map]
    rw [hlen, eraseIdx_split]

theorem map_bare_prune_sublist (rows : List Row) :
    ((prune rows).map bare).Sublist (rows.map bare) := by
  obtain ⟨kept, dropped, heq, hsub⟩ := exists_prune_eq rows
  rw [heq, map_bare_eq (bare_forgetAll dropped)]
  exact hsub.map bare

theorem map_bare_removeAround (rows : List Row) (i : Nat) (doomed : List Nat) :
    ((removeAround rows i doomed).1.map bare).Sublist (rows.map bare)
      ∧
    ((removeAround rows i doomed).1.map bare)[(removeAround rows i doomed).2]?
      =
    (rows.map bare)[i]? := by
  induction doomed with
  | nil => exact ⟨List.Sublist.refl _, rfl⟩
  | cons j doomed ih =>
    obtain ⟨hsub, hget⟩ := ih
    rw [removeAround, List.foldr_cons, ← removeAround]
    generalize removeAround rows i doomed = removed at *
    obtain ⟨rows', i'⟩ := removed
    dsimp only at *
    split
    . exact ⟨hsub, hget⟩
    . next hne =>
      rw [map_bare_removeRow]
      refine ⟨(List.eraseIdx_sublist ..).trans hsub, ?_⟩
      rw [← hget, List.getElem?_eraseIdx]
      split
      . next hlt =>
        have hpred : ¬ i' - 1 < j := by omega
        rw [if_neg hpred, Nat.sub_add_cancel (by omega)]
      . next hlt => rw [if_pos (by omega)]

theorem exists_removeInside_eq (header : Label) (before after : List Row) :
    ∃ before' after',
      removeInside header before.length (before ++ after) = (before' ++ after', before'.length)
        ∧ (before'.map bare).Sublist (before.map bare) ∧ after'.map bare = after.map bare := by
  induction hn : before.length generalizing before after with
  | zero =>
    have : before = [] := List.length_eq_zero_iff.mp hn
    subst this
    exact ⟨[], after, rfl, List.Sublist.refl _, rfl⟩
  | succ n ih =>
    obtain rfl | ⟨init, last, rfl⟩ := List.eq_nil_or_concat' before
    . simp at hn
    . have hinit : init.length = n := by simpa using hn
      rw [List.append_assoc, List.singleton_append, ← hinit, removeInside, getElem?_split]
      split
      . rw [removeRow_split]
        have hlen : (init.map (Row.forget last.label)).length = n := by simpa using hinit
        obtain ⟨before', after', heq, hsub, hafter⟩ := ih _ (after.map (closeUp last.label)) hlen
        refine ⟨before', after', hinit ▸ heq, ?_, ?_⟩
        . rw [map_bare_eq (bare_forget _)] at hsub
          rw [List.map_append]
          exact hsub.trans (List.sublist_append_left ..)
        . rw [hafter, map_bare_eq (bare_closeUp _)]
      . exact ⟨init ++ [last], after, by simp, List.Sublist.refl _, rfl⟩

theorem openSubproof_eq {d : Derivation} {i : Nat} {header : Label} {source : Stamp}
    {premise goal : Formula} {before after : List Row} {row : Row}
    (h : removeInside header i d.rows = (before ++ row :: after, before.length)) :
    d.openSubproof i header source premise goal
      =
    { d with
      rows := before
        ++ ⟨header.child 1, assumptionLine premise d.stamp source⟩
          :: ⟨header.child 2, goalLine goal d.stamp.next source⟩
          :: ⟨row.label, { row.line with
            arguments := [some (header.child 1), some (header.child 2)] }⟩ :: after
      stamp := d.stamp.next.next } := by
  unfold openSubproof
  rw [h]
  dsimp only
  rw [modify_split, List.take_left, List.drop_left]
  simp

theorem exists_openSubproof_eq {d : Derivation} {before after : List Row} {row : Row}
    (hrows : d.rows = before ++ row :: after) (header : Label) (source : Stamp)
    (premise goal : Formula) :
    ∃ before' row' after', (before'.map bare).Sublist (before.map bare) ∧ bare row' = bare row
      ∧ after'.map bare = after.map bare
      ∧ d.openSubproof before.length header source premise goal
        = { d with
            rows := before'
              ++ ⟨header.child 1, assumptionLine premise d.stamp source⟩
                :: ⟨header.child 2, goalLine goal d.stamp.next source⟩
                :: ⟨row'.label, { row'.line with
                  arguments := [some (header.child 1), some (header.child 2)] }⟩ :: after'
            stamp := d.stamp.next.next } := by
  obtain ⟨before', rest, hremove, hbefore, hrest⟩ :=
    exists_removeInside_eq header before (row :: after)
  cases rest with
  | nil => simp at hrest
  | cons row' after' =>
    simp only [List.map_cons, List.cons.injEq] at hrest
    exact ⟨before', row', after', hbefore, hrest.1, hrest.2, openSubproof_eq (hrows ▸ hremove)⟩

end ProofDesk.Derivation
