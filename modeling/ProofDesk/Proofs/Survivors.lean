import Mathlib.Data.List.Chain
import Mathlib.Data.List.Induction
import ProofDesk.Derivation.Prune
import ProofDesk.Proofs.Rows

/-!
This module contains which rows pruning keeps, said by index and for rows of any depth and rule: the
first row, and every row that no later row abandons.
-/

namespace ProofDesk.Derivation

theorem forgetAll_eq (labels : List Label) (row : Row) :
    forgetAll labels row
      =
    ⟨row.label, { row.line with
      arguments := row.line.arguments.map (Option.filter fun label => !labels.contains label) }⟩
    := by
  unfold forgetAll
  induction labels generalizing row with
  | nil =>
    have hid : Option.filter (fun _ => true) = (id : Option Label → Option Label) := by
      funext arg
      cases arg <;> rfl
    simp [hid]
  | cons l labels ih =>
    rw [List.foldl_cons, ih]
    simp only [Row.forget, List.map_map]
    congr 2
    apply List.map_congr_left
    intro arg _
    cases arg with
    | none => rfl
    | some label =>
      by_cases h : label = l
      . simp [h, Option.filter_some]
      . simp [h, Option.filter_some]

@[simp]
theorem label_forgetAll (labels : List Label) (row : Row) :
    (forgetAll labels row).label = row.label := by
  rw [forgetAll_eq]

theorem forgetAll_perm {labels labels' : List Label} (h : labels.Perm labels') :
    forgetAll labels = forgetAll labels' := by
  funext row
  simp only [forgetAll_eq, h.contains_eq]

/--
Row `i` abandons the earlier row `j`: it is no direct proof, and less deep than all rows from row
`j` up to it.
-/
def Abandons (rows : List Row) (i j : Nat) : Prop :=
  j < i ∧ ∃ header ∈ rows[i]?, header.line.step.rule ≠ some .directProof
    ∧ ∀ k, j ≤ k → k < i → ∀ row ∈ rows[k]?, header.label.depth < row.label.depth

instance (rows : List Row) (i j : Nat) : Decidable (Abandons rows i j) :=
  inferInstanceAs (Decidable (_ ∧ _))

def IsAbandoned (rows : List Row) (j : Nat) : Prop :=
  ∃ i < rows.length, Abandons rows i j

instance (rows : List Row) : DecidablePred (IsAbandoned rows) :=
  fun _ => inferInstanceAs (Decidable (∃ i < rows.length, _))

def rowsAt (p : Nat → Prop) [DecidablePred p] (rows : List Row) : List Row :=
  ((List.range rows.length).filter fun j => p j).filterMap fun j => rows[j]?

theorem rowsAt_cons (p : Nat → Prop) [DecidablePred p] (row : Row) (rows : List Row) :
    rowsAt p (row :: rows)
      =
    (if p 0 then [row] else []) ++ rowsAt (fun j => p (j + 1)) rows := by
  unfold rowsAt
  rw [List.length_cons, List.range_succ_eq_map, List.filter_cons, List.filter_map]
  split <;> simp_all [List.filterMap_map, Function.comp_def]

theorem rowsAt_congr {p q : Nat → Prop} [DecidablePred p] [DecidablePred q] (h : ∀ j, p j ↔ q j)
    (rows : List Row) : rowsAt p rows = rowsAt q rows := by
  unfold rowsAt
  simp only [h]

def CutOff (row : Row) (rest : List Row) : Prop :=
  ∃ inner header after, rest = inner ++ header :: after
    ∧ header.line.step.rule ≠ some .directProof
    ∧ ∀ r ∈ row :: inner, header.label.depth < r.label.depth

theorem isAbandoned_zero {row : Row} {rest : List Row} :
    IsAbandoned (row :: rest) 0 ↔ CutOff row rest := by
  constructor
  . rintro ⟨i, -, hi, header, hheader, hrule, hdeep⟩
    obtain ⟨i, rfl⟩ := Nat.exists_eq_add_one.mpr hi
    rw [List.getElem?_cons_succ] at hheader
    obtain ⟨inner, after, rfl, rfl⟩ := exists_split_of_getElem? hheader
    refine ⟨inner, header, after, rfl, hrule, ?_⟩
    intro r hr
    obtain ⟨k, hk⟩ := List.getElem?_of_mem hr
    have hlt := (List.getElem?_eq_some_iff.mp hk).1
    apply hdeep k (Nat.zero_le k) hlt
    rwa [Option.mem_def, ← List.cons_append, List.getElem?_append_left hlt]
  . rintro ⟨inner, header, after, rfl, hrule, hdeep⟩
    refine ⟨inner.length + 1, by simp, Nat.succ_pos _, header, by simp, hrule, ?_⟩
    intro k _ hk r hr
    apply hdeep r
    rw [Option.mem_def, ← List.cons_append, List.getElem?_append_left (by simpa using hk)] at hr
    exact List.mem_of_getElem? hr

theorem isAbandoned_succ {row : Row} {rest : List Row} {j : Nat} :
    IsAbandoned (row :: rest) (j + 1) ↔ IsAbandoned rest j := by
  constructor
  . rintro ⟨i, hi, hj, header, hheader, hrule, hdeep⟩
    obtain ⟨i, rfl⟩ := Nat.exists_eq_add_one_of_ne_zero (Nat.ne_of_gt (Nat.zero_lt_of_lt hj))
    refine ⟨i, by simpa using hi, by simpa using hj, header, by simpa using hheader, hrule, ?_⟩
    intro k hjk hki r hr
    exact hdeep (k + 1) (by omega) (by omega) r (by simpa using hr)
  . rintro ⟨i, hi, hj, header, hheader, hrule, hdeep⟩
    refine ⟨i + 1, by simpa using hi, by simpa using hj, header, by simpa using hheader, hrule, ?_⟩
    intro k hjk hki r hr
    obtain ⟨k, rfl⟩ := Nat.exists_eq_add_one_of_ne_zero (Nat.ne_of_gt (Nat.zero_lt_of_lt hjk))
    exact hdeep k (by omega) (by omega) r (by simpa using hr)

instance (row : Row) (rest : List Row) : Decidable (CutOff row rest) :=
  decidable_of_iff _ isAbandoned_zero

def Closes (a b : Row) : Prop :=
  b.line.step.rule ≠ some .directProof → a.label.depth ≤ b.label.depth

theorem cutOff_append {row : Row} {rest more : List Row}
    (h : ∀ a ∈ (row :: rest).getLast?, ∀ r ∈ more, Closes a r) :
    CutOff row (rest ++ more) ↔ CutOff row rest := by
  constructor
  . rintro ⟨inner, header, after, heq, hrule, hdeep⟩
    have hlast := List.getLast?_eq_some_getLast (List.cons_ne_nil row rest)
    -- A row of `more` would be less deep than the last row before `more`.
    have hnot : ∀ inner', inner = rest ++ inner' → header ∉ more := by
      rintro inner' rfl hmem
      have hle := h _ hlast header hmem hrule
      have hlt := hdeep _ (List.mem_append_left inner' (List.mem_of_getLast? hlast))
      omega
    rcases List.append_eq_append_iff.mp heq with ⟨inner', hinner, hmore⟩ | ⟨after', hrest, hafter⟩
    . exact absurd (by simp [hmore]) (hnot inner' hinner)
    . cases after' with
      | nil =>
        rw [List.nil_append] at hafter
        exact absurd (hafter ▸ List.mem_cons_self) (hnot [] (by simpa using hrest.symm))
      | cons r after' =>
        obtain ⟨rfl, -⟩ := List.cons.inj hafter
        exact ⟨inner, header, after', hrest, hrule, hdeep⟩
  . rintro ⟨inner, header, after, rfl, hrule, hdeep⟩
    exact ⟨inner, header, after ++ more, by simp, hrule, hdeep⟩

def sift (abandoned : Bool) (rows : List Row) : List Row :=
  rowsAt (fun j => decide (IsAbandoned rows j) = abandoned) rows

@[simp]
theorem sift_nil (abandoned : Bool) : sift abandoned [] = [] := by
  rfl

theorem sift_cons (abandoned : Bool) (row : Row) (rest : List Row) :
    sift abandoned (row :: rest)
      =
    (if decide (CutOff row rest) = abandoned then [row] else []) ++ sift abandoned rest := by
  rw [sift, rowsAt_cons, sift]
  simp only [isAbandoned_zero]
  congr 1
  apply rowsAt_congr
  intro j
  simp only [isAbandoned_succ]

theorem sift_append (abandoned : Bool) {outer inner : List Row}
    (h : ∀ a ∈ outer.getLast?, ∀ r ∈ inner, Closes a r) :
    sift abandoned (outer ++ inner) = sift abandoned outer ++ sift abandoned inner := by
  induction outer with
  | nil => rfl
  | cons row outer ih =>
    have houter : ∀ a ∈ outer.getLast?, ∀ r ∈ inner, Closes a r := by
      intro a ha
      apply h a
      rw [List.getLast?_cons, ha]
      rfl
    rw [List.cons_append, sift_cons, sift_cons, ih houter, List.append_assoc]
    simp only [cutOff_append h]

theorem sift_singleton (abandoned : Bool) (row : Row) :
    sift abandoned [row] = if abandoned then [] else [row] := by
  have hnot : ¬ CutOff row [] := by
    rintro ⟨inner, header, after, heq, -⟩
    simp at heq
  cases abandoned <;> simp [sift_cons, hnot]

theorem sift_concat_of_deeper (abandoned : Bool) {inner : List Row} {row : Row}
    (hrule : row.line.step.rule ≠ some .directProof)
    (hdeep : ∀ r ∈ inner, row.label.depth < r.label.depth) :
    sift abandoned (inner ++ [row]) = if abandoned then inner else [row] := by
  induction inner with
  | nil => exact sift_singleton abandoned row
  | cons r inner ih =>
    have hcut : CutOff r (inner ++ [row]) := ⟨inner, row, [], rfl, hrule, hdeep⟩
    rw [List.cons_append, sift_cons, ih fun r' hr' => hdeep r' (List.mem_cons_of_mem _ hr')]
    cases abandoned <;> simp [hcut]

theorem sift_perm (rows : List Row) : (sift true rows ++ sift false rows).Perm rows := by
  induction rows with
  | nil => exact .nil
  | cons row rows ih =>
    rw [sift_cons, sift_cons]
    by_cases hcut : CutOff row rows
    . simpa [hcut] using ih
    . simpa [hcut] using List.perm_middle.trans (ih.cons row)

theorem sift_sublist (abandoned : Bool) (rows : List Row) :
    (sift abandoned rows).Sublist rows := by
  induction rows with
  | nil => exact .slnil
  | cons row rows ih =>
    rw [sift_cons]
    split
    . exact ih.cons_cons row
    . exact ih.cons row

structure SplitAt (k : Nat) (rows outer inner : List Row) : Prop where
  eq : rows = outer ++ inner
  inner : ∀ r ∈ inner, k < r.label.depth
  outer : ∀ a ∈ outer.getLast?, a.label.depth ≤ k

theorem SplitAt.sift {k : Nat} {rows outer inner : List Row} (h : SplitAt k rows outer inner)
    (abandoned : Bool) : sift abandoned rows = sift abandoned outer ++ sift abandoned inner := by
  rw [h.eq]
  apply sift_append
  intro a ha r hr _
  have hle := h.outer a ha
  have hlt := h.inner r hr
  omega

theorem SplitAt.concat {k : Nat} {rows outer inner : List Row} {row : Row}
    (h : SplitAt k rows outer inner) (hk : k < row.label.depth) :
    SplitAt k (rows ++ [row]) outer (inner ++ [row]) := by
  refine ⟨by rw [h.eq, List.append_assoc], ?_, h.outer⟩
  rw [List.forall_mem_append]
  exact ⟨h.inner, by simpa using hk⟩

theorem SplitAt.sift_concat {rows outer inner : List Row} {row : Row}
    (h : SplitAt row.label.depth rows outer inner) (abandoned : Bool)
    (hrule : row.line.step.rule ≠ some .directProof) :
    Derivation.sift abandoned (rows ++ [row])
      =
    Derivation.sift abandoned outer ++ if abandoned then inner else [row] := by
  rw [h.eq, List.append_assoc, sift_append, sift_concat_of_deeper abandoned hrule h.inner]
  intro a ha r hr _
  have hle := h.outer a ha
  rcases List.mem_append.mp hr with hr | hr
  . have := h.inner r hr
    omega
  . rwa [List.mem_singleton.mp hr]

namespace Pruning

variable {s : Pruning} {first row : Row} {seen rows : List Row}

theorem getElem?_opened {n k t : Nat} (h : (s.opened n)[k]? = some t) :
    s.starts[k]? = some t ∨ s.starts.length ≤ k ∧ k < n ∧ t = s.kept.length := by
  unfold opened at h
  by_cases hk : k < s.starts.length
  . left
    rwa [List.getElem?_append_left hk] at h
  . right
    rw [List.getElem?_append_right (by omega), List.getElem?_replicate] at h
    split at h
    . simp only [Option.some.injEq] at h
      omega
    . simp at h

structure Traced (s : Pruning) (first : Row) (seen : List Row) : Prop where
  kept : s.kept = first :: sift false seen
  dropped : s.dropped.Perm ((sift true seen).map Row.label)
  depth : s.starts.length = (seen.getLast?.map (·.label.depth)).getD 1
  starts : ∀ k t, 0 < k → s.starts[k]? = some t →
    ∃ outer inner, SplitAt k seen outer inner ∧ t = (sift false outer).length + 1

theorem traced_start (first : Row) : Traced ⟨[first], [0], []⟩ first [] := by
  refine ⟨rfl, by simp, rfl, ?_⟩
  intro k t hk ht
  cases k with
  | zero => exact absurd hk (Nat.lt_irrefl 0)
  | succ k => simp at ht

theorem Traced.length_le (h : s.Traced first seen) {a : Row} (ha : a ∈ seen.getLast?) :
    a.label.depth = s.starts.length := by
  rw [h.depth, Option.mem_def.mp ha]
  rfl

theorem Traced.starts_next (h : s.Traced first seen) :
    ∀ k t, 0 < k → ((s.opened row.label.depth).take row.label.depth)[k]? = some t →
      ∃ outer inner, SplitAt k (seen ++ [row]) outer inner
        ∧ t = (sift false outer).length + 1 := by
  intro k t hk ht
  rw [List.getElem?_take] at ht
  split at ht
  . next hlt =>
    rcases getElem?_opened ht with ht | ⟨hle, -, rfl⟩
    . obtain ⟨outer, inner, hsplit, rfl⟩ := h.starts k t hk ht
      exact ⟨outer, inner ++ [row], hsplit.concat hlt, rfl⟩
    . refine ⟨seen, [row], ⟨rfl, by simpa using hlt, ?_⟩, ?_⟩
      . intro a ha
        rwa [h.length_le ha]
      . rw [h.kept, List.length_cons]
  . simp at ht

theorem length_take_opened (s : Pruning) (n : Nat) : ((s.opened n).take n).length = n := by
  simp only [opened, List.length_take, List.length_append, List.length_replicate]
  omega

theorem Traced.next (h : s.Traced first seen) (hdepth : 0 < row.label.depth) :
    (s.next row).Traced first (seen ++ [row]) := by
  have hlast : ((s.opened row.label.depth).take row.label.depth).length
      = ((seen ++ [row]).getLast?.map (·.label.depth)).getD 1 := by
    rw [length_take_opened, List.getLast?_concat]
    rfl
  have hkeep (hcloses : ∀ a ∈ seen.getLast?, ∀ r ∈ [row], Closes a r) :
      Traced ⟨s.kept ++ [row], (s.opened row.label.depth).take row.label.depth, s.dropped⟩ first
        (seen ++ [row]) := by
    refine ⟨?_, ?_, hlast, h.starts_next⟩
    . rw [h.kept, sift_append false hcloses, sift_singleton]
      rfl
    . rw [sift_append true hcloses, sift_singleton]
      simpa using h.dropped
  unfold Pruning.next
  dsimp only
  split
  . next start hstart =>
    split
    . next hrule =>
      apply hkeep
      intro a _ r hr hne
      rw [List.mem_singleton.mp hr] at hne
      exact absurd hrule hne
    . next hrule =>
      have hstart : s.starts[row.label.depth]? = some start := by
        rcases getElem?_opened hstart with h | ⟨-, hlt, -⟩
        . exact h
        . exact absurd hlt (Nat.lt_irrefl _)
      obtain ⟨outer, inner, hsplit, rfl⟩ := h.starts _ start hdepth hstart
      have hkept : s.kept = first :: sift false outer ++ sift false inner := by
        rw [h.kept, hsplit.sift]
        rfl
      refine ⟨?_, ?_, hlast, h.starts_next⟩
      . rw [hkept, hsplit.sift_concat false hrule, List.take_left' (by simp)]
        rfl
      . have hdropped := h.dropped
        rw [hsplit.sift] at hdropped
        rw [hsplit.sift_concat true hrule, hkept, List.drop_left' (by simp), if_pos rfl]
        have hinner := ((sift_perm inner).append_left (sift true outer)).map Row.label
        rw [← List.append_assoc, List.map_append] at hinner
        exact (hdropped.append_right _).trans hinner
  . next hnone =>
    apply hkeep
    intro a ha r hr _
    rw [List.mem_singleton.mp hr, h.length_le ha]
    have := List.getElem?_eq_none_iff.mp hnone
    simp only [opened, List.length_append] at this
    omega

theorem Traced.foldl (h : s.Traced first seen) (hdepth : ∀ r ∈ rows, 0 < r.label.depth) :
    (rows.foldl Pruning.next s).Traced first (seen ++ rows) := by
  induction rows generalizing s seen with
  | nil => simpa using h
  | cons row rows ih =>
    rw [List.forall_mem_cons] at hdepth
    have := ih (h.next hdepth.1) hdepth.2
    simpa using this

end Pruning

theorem prune_cons_eq {first : Row} {rows : List Row} (hdepth : ∀ r ∈ rows, 0 < r.label.depth) :
    prune (first :: rows)
      =
    (first :: sift false rows).map (forgetAll ((sift true rows).map Row.label)) := by
  have h := (Pruning.traced_start first).foldl hdepth
  rw [List.nil_append] at h
  rw [← h.kept, ← forgetAll_perm h.dropped]
  rfl

section Chain

variable {rows : List Row} {row : Row}

theorem exists_splitAt (k : Nat) (rows : List Row) :
    ∃ outer inner, SplitAt k rows outer inner := by
  induction rows using List.reverseRecOn with
  | nil => exact ⟨[], [], rfl, by simp, by simp⟩
  | append_singleton rows row ih =>
    by_cases hk : k < row.label.depth
    . obtain ⟨outer, inner, h⟩ := ih
      exact ⟨outer, inner ++ [row], h.concat hk⟩
    . exact ⟨rows ++ [row], [], by simp, by simp, by simpa using hk⟩

theorem exists_sift_concat (rows : List Row) (row : Row) :
    ∃ outer inner, rows = outer ++ inner
      ∧ sift false rows = sift false outer ++ sift false inner
      ∧ sift false (rows ++ [row]) = sift false outer ++ [row]
      ∧ ∀ a ∈ outer.getLast?, Closes a row := by
  by_cases hrule : row.line.step.rule = some .directProof
  . have hcloses : ∀ a ∈ rows.getLast?, Closes a row := fun a _ hne => absurd hrule hne
    refine ⟨rows, [], by simp, by simp, ?_, hcloses⟩
    rw [sift_append false (by simpa using hcloses), sift_singleton]
    rfl
  . obtain ⟨outer, inner, h⟩ := exists_splitAt row.label.depth rows
    exact ⟨outer, inner, h.eq, h.sift false, h.sift_concat false hrule, fun a ha _ => h.outer a ha⟩

theorem getLast?_sift (rows : List Row) : (sift false rows).getLast? = rows.getLast? := by
  obtain rfl | ⟨init, last, rfl⟩ := List.eq_nil_or_concat' rows
  . rfl
  . obtain ⟨outer, -, -, -, heq, -⟩ := exists_sift_concat init last
    rw [heq, List.getLast?_concat, List.getLast?_concat]

theorem isChain_sift (rows : List Row) : (sift false rows).IsChain Closes := by
  induction rows using List.reverseRecOn with
  | nil => exact .nil
  | append_singleton rows row ih =>
    obtain ⟨outer, inner, -, hsplit, heq, hcloses⟩ := exists_sift_concat rows row
    rw [hsplit] at ih
    rw [heq]
    refine List.isChain_append.mpr ⟨ih.left_of_append, List.isChain_singleton row, ?_⟩
    intro a ha b hb
    rw [getLast?_sift] at ha
    have : row = b := by simpa using hb
    exact this ▸ hcloses a ha

theorem sift_of_isChain (abandoned : Bool) (h : rows.IsChain Closes) :
    sift abandoned rows = if abandoned then [] else rows := by
  induction rows using List.reverseRecOn with
  | nil => cases abandoned <;> rfl
  | append_singleton rows row ih =>
    obtain ⟨hchain, -, hcloses⟩ := List.isChain_append.mp h
    rw [sift_append, ih hchain, sift_singleton]
    . cases abandoned <;> rfl
    . intro a ha r hr
      rw [List.mem_singleton.mp hr]
      exact hcloses a ha row rfl

theorem prune_eq_self {first : Row} (hdepth : ∀ r ∈ rows, 0 < r.label.depth)
    (h : rows.IsChain Closes) : prune (first :: rows) = first :: rows := by
  rw [prune_cons_eq hdepth, sift_of_isChain true h, sift_of_isChain false h]
  exact List.map_id _

theorem isChain_map_forgetAll (h : rows.IsChain Closes) (labels : List Label) :
    (rows.map (forgetAll labels)).IsChain Closes := by
  rw [List.isChain_map]
  simp only [forgetAll_eq]
  exact h

end Chain

def Survives (rows : List Row) (j : Nat) : Prop :=
  j = 0 ∨ ¬ IsAbandoned rows j

instance (rows : List Row) : DecidablePred (Survives rows) :=
  fun _ => inferInstanceAs (Decidable (_ ∨ _))

theorem rowsAt_survives (first : Row) (rows : List Row) :
    rowsAt (Survives (first :: rows)) (first :: rows) = first :: sift false rows := by
  rw [rowsAt_cons, if_pos (.inl rfl), List.singleton_append, sift]
  congr 1
  apply rowsAt_congr
  intro j
  simp [Survives, isAbandoned_succ]

theorem rowsAt_not_survives (first : Row) (rows : List Row) :
    rowsAt (fun j => ¬ Survives (first :: rows) j) (first :: rows) = sift true rows := by
  rw [rowsAt_cons, if_neg (not_not_intro (.inl rfl)), List.nil_append, sift]
  apply rowsAt_congr
  intro j
  simp [Survives, isAbandoned_succ]

def uncite (labels : List Label) (row : Row) : Row :=
  { row with line := { row.line with
      arguments := row.line.arguments.map fun arg =>
        if ∃ label ∈ labels, arg = some label then none else arg } }

theorem forgetAll_eq_uncite (labels : List Label) : forgetAll labels = uncite labels := by
  funext row
  have hargs : row.line.arguments.map (Option.filter fun label => !labels.contains label)
      = row.line.arguments.map fun arg => if ∃ label ∈ labels, arg = some label then none else arg
      := by
    apply List.map_congr_left
    intro arg _
    cases arg with
    | none => simp
    | some label => by_cases h : label ∈ labels <;> simp [h, Option.filter_some]
  rw [forgetAll_eq, uncite, hargs]

theorem prune_prune {rows : List Row} (hdepth : ∀ row ∈ rows, 0 < row.label.depth) :
    prune (prune rows) = prune rows := by
  cases rows with
  | nil => rfl
  | cons first rows =>
    rw [List.forall_mem_cons] at hdepth
    rw [prune_cons_eq hdepth.2, List.map_cons]
    apply prune_eq_self
    . simp only [List.forall_mem_map, label_forgetAll]
      intro row hrow
      exact hdepth.2 row ((sift_sublist false rows).subset hrow)
    . exact isChain_map_forgetAll (isChain_sift rows) _

namespace Pruning

theorem Traced.le_length {s : Pruning} {first : Row} {seen : List Row} (h : s.Traced first seen)
    {k start : Nat} (hk : 0 < k) (hstart : s.starts[k]? = some start) :
    0 < start ∧ start ≤ s.kept.length := by
  obtain ⟨outer, inner, hsplit, rfl⟩ := h.starts k start hk hstart
  rw [h.kept, hsplit.sift, List.length_cons, List.length_append]
  omega

end Pruning

/--
Pruning keeps the rows that survive, in order and with their labels, and unsets their citations of
the other rows. Doing it again changes nothing. Wherever the pass cuts off rows, it does so after
the first row and within the rows that it has kept so far.
-/
theorem prune_eq_survivors (rows : List Row) (hlabels : ∀ row ∈ rows, row.label.parts ≠ []) :
    prune rows = (rowsAt (Survives rows) rows).map
        (uncite ((rowsAt (fun j => ¬ Survives rows j) rows).map Row.label))
      ∧ prune (prune rows) = prune rows
      ∧ ∀ first seen row rest, rows = first :: (seen ++ row :: rest) →
        ∀ start, (Pruning.after first seen).starts[row.label.depth]? = some start →
          0 < start ∧ start ≤ (Pruning.after first seen).kept.length := by
  have hdepth : ∀ row ∈ rows, 0 < row.label.depth :=
    fun row hrow => List.length_pos_of_ne_nil (hlabels row hrow)
  refine ⟨?_, prune_prune hdepth, ?_⟩
  . cases rows with
    | nil => rfl
    | cons first rows =>
      rw [List.forall_mem_cons] at hdepth
      rw [prune_cons_eq hdepth.2, rowsAt_survives, rowsAt_not_survives, forgetAll_eq_uncite]
  . rintro first seen row rest rfl start hstart
    have hseen : ∀ r ∈ seen, 0 < r.label.depth := fun r hr => hdepth r (by simp [hr])
    have htraced := (Pruning.traced_start first).foldl hseen
    exact htraced.le_length (hdepth row (by simp)) hstart

def halfAbandoned : List Row :=
  let line (rule : Option Rule) (arguments : List (Option Label)) : Line :=
    { Line.new (.const true) ⟨0⟩ (.ofRule rule .backward) true true with arguments }
  [⟨⟨[1]⟩, line (some .assumption) []⟩,
    ⟨⟨[2, 1, 1]⟩, line (some .assumption) []⟩,
    ⟨⟨[2, 1]⟩, line (some .directProof) [some ⟨[2, 1, 1]⟩, none]⟩,
    ⟨⟨[2, 2]⟩, line none []⟩,
    ⟨⟨[2]⟩, line none [some ⟨[2, 1]⟩, some ⟨[2, 2]⟩]⟩,
    ⟨⟨[3, 1]⟩, line (some .assumption) []⟩,
    ⟨⟨[3]⟩, line (some .directProof) [some ⟨[3, 1]⟩, some ⟨[2, 2]⟩]⟩]

theorem prune_halfAbandoned :
    (∀ row ∈ halfAbandoned, row.label.parts ≠ [])
      ∧ (prune halfAbandoned).map (fun row => (row.label.parts, row.line.arguments))
        = [([1], []), ([2], [none, none]), ([3, 1], []), ([3], [some ⟨[3, 1]⟩, none])]
      ∧ (rowsAt (Survives halfAbandoned) halfAbandoned).map (·.label.parts)
        = [[1], [2], [3, 1], [3]]
      ∧ prune halfAbandoned = (rowsAt (Survives halfAbandoned) halfAbandoned).map
        (uncite ((rowsAt (fun j => ¬ Survives halfAbandoned j) halfAbandoned).map Row.label))
      ∧ prune (prune halfAbandoned) = prune halfAbandoned := by
  have hlabels : ∀ row ∈ halfAbandoned, row.label.parts ≠ [] := by decide
  obtain ⟨heq, htwice, -⟩ := prune_eq_survivors halfAbandoned hlabels
  exact ⟨hlabels, by decide, by decide, heq, htwice⟩

end ProofDesk.Derivation
