import ProofDesk.Proofs.Survivors

/-!
This module contains what pruning keeps of rows among which some are known to be abandoned.
-/

namespace ProofDesk.Derivation

namespace Pruning

variable {s : Pruning}

theorem exists_kept_next (s : Pruning) (row : Row) :
    ∃ t, (s.next row).kept = s.kept.take t ++ [row] := by
  unfold next
  dsimp only
  split
  . next start _ =>
    split
    . exact ⟨s.kept.length, by simp⟩
    . exact ⟨start, rfl⟩
  . exact ⟨s.kept.length, by simp⟩

theorem sublist_foldl_next {seen rows : List Row} (h : s.kept.Sublist seen) :
    (rows.foldl Pruning.next s).kept.Sublist (seen ++ rows) := by
  induction rows generalizing s seen with
  | nil => simpa using h
  | cons row rows ih =>
    obtain ⟨t, ht⟩ := s.exists_kept_next row
    have hnext : (s.next row).kept.Sublist (seen ++ [row]) := by
      rw [ht]
      exact ((List.take_sublist ..).trans h).append (List.Sublist.refl _)
    have := ih hnext
    rwa [List.append_assoc, List.singleton_append] at this

end Pruning

theorem exists_prune_eq (rows : List Row) :
    ∃ (kept : List Row) (dropped : List Label),
      prune rows = kept.map (forgetAll dropped) ∧ kept.Sublist rows := by
  cases rows with
  | nil => exact ⟨[], [], rfl, List.Sublist.refl _⟩
  | cons row rows =>
    have h : (⟨[row], [0], []⟩ : Pruning).kept.Sublist [row] := List.Sublist.refl _
    exact ⟨_, _, rfl, Pruning.sublist_foldl_next h⟩

/--
`rows` are the `live` rows and rows that pruning will drop: each of these stands before a live row
that is no direct proof, and is inside it.
-/
inductive Overgrown : List Row → List Row → Prop where
  | nil : Overgrown [] []
  | live (row : Row) {live rows : List Row} (h : Overgrown live rows) :
      Overgrown (row :: live) (row :: rows)
  | weed (weed header : Row) {live rows : List Row}
      (hrule : header.line.step.rule ≠ some .directProof)
      (hin : weed.label.isInside header.label) (h : Overgrown (header :: live) rows) :
      Overgrown (header :: live) (weed :: rows)

namespace Overgrown

variable {live rows : List Row}

theorem refl (rows : List Row) : Overgrown rows rows := by
  induction rows with
  | nil => exact .nil
  | cons row rows ih => exact .live row ih

theorem subset (h : Overgrown live rows) : live ⊆ rows := by
  induction h with
  | nil => simp
  | live row _ ih => exact List.cons_subset_cons row ih
  | weed weed _ _ _ _ ih => exact List.subset_cons_of_subset weed ih

theorem getLast? (h : Overgrown live rows) : rows.getLast? = live.getLast? := by
  induction h with
  | nil => rfl
  | live row _ ih => rw [List.getLast?_cons, List.getLast?_cons, ih]
  | weed weed header _ _ _ ih => rw [List.getLast?_cons, ih, List.getLast?_cons, Option.getD_some]

theorem exists_eq_append {header : Row} (h : Overgrown (header :: live) rows) :
    ∃ inner after, rows = inner ++ header :: after
      ∧ ∀ r ∈ inner, r.label.isInside header.label := by
  generalize hlive : header :: live = live' at h
  induction h with
  | nil => simp at hlive
  | live row h ih =>
    obtain ⟨rfl, -⟩ := List.cons.inj hlive
    exact ⟨[], _, rfl, by simp⟩
  | weed weed row hrule hin h ih =>
    obtain ⟨inner, after, rfl, hinner⟩ := ih hlive
    obtain ⟨rfl, -⟩ := List.cons.inj hlive
    exact ⟨weed :: inner, after, rfl, List.forall_mem_cons.mpr ⟨hin, hinner⟩⟩

theorem sift_sublist (h : Overgrown live rows) : (sift false rows).Sublist live := by
  induction h with
  | nil => exact .slnil
  | live row h ih =>
    rw [sift_cons]
    split
    . exact ih.cons_cons row
    . exact ih.cons row
  | @weed weed header live rows hrule hin h ih =>
    obtain ⟨inner, after, hrows, hinner⟩ := h.exists_eq_append
    have hcut : CutOff weed rows := by
      refine ⟨inner, header, after, hrows, hrule, ?_⟩
      intro r hr
      rcases List.mem_cons.mp hr with rfl | hr
      . exact Label.depth_lt_of_isInside hin
      . exact Label.depth_lt_of_isInside (hinner r hr)
    rw [sift_cons, if_neg (by simpa using hcut)]
    exact ih

end Overgrown

structure PrunedTo (live : List Row) (result kept : List Row) (dropped : List Label) : Prop where
  eq_map : result = kept.map (forgetAll dropped)
  sublist : kept.Sublist live
  isChain : kept.IsChain Closes
  head? : kept.head? = live.head?
  getLast? : kept.getLast? = live.getLast?
  mem_or_mem : ∀ row ∈ live, row ∈ kept ∨ row.label ∈ dropped

theorem exists_prunedTo {first : Row} {live rows : List Row} (hfirst : first.label.depth = 1)
    (hdepth : ∀ row ∈ rows, 0 < row.label.depth) (hrows : Overgrown live rows) :
    ∃ kept dropped, PrunedTo (first :: live) (prune (first :: rows)) kept dropped := by
  refine ⟨_, _, prune_cons_eq hdepth, hrows.sift_sublist.cons_cons first, ?_, rfl, ?_, ?_⟩
  . refine List.isChain_cons.mpr ⟨?_, isChain_sift rows⟩
    intro row hrow _
    rw [hfirst]
    exact hdepth row ((sift_sublist false rows).subset (List.mem_of_head? hrow))
  . rw [List.getLast?_cons, List.getLast?_cons, getLast?_sift, hrows.getLast?]
  . intro row hrow
    rcases List.mem_cons.mp hrow with rfl | hrow
    . exact .inl List.mem_cons_self
    . rcases List.mem_append.mp ((sift_perm rows).mem_iff.mpr (hrows.subset hrow)) with hrow | hrow
      . exact .inr (List.mem_map_of_mem hrow)
      . exact .inl (List.mem_cons_of_mem _ hrow)

end ProofDesk.Derivation
