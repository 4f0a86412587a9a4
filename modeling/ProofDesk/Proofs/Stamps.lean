import ProofDesk.Proofs.Edit.Moves

/-!
This module contains the stamps of a derivation over a whole run: no two rows share one, and a row
that was generated from another stands before it. So what is generated from a row is found among the
rows before it.
-/

namespace ProofDesk.Derivation

def link (line : Line) : Stamp × Option Stamp :=
  (line.stamp, line.source)

structure Linked (next : Stamp) (links : List (Stamp × Option Stamp)) : Prop where
  stamp_lt : ∀ l ∈ links, l.1.number < next.number
  source_lt : ∀ l ∈ links, ∀ s, l.2 = some s → s.number < next.number
  distinct : links.Pairwise fun a b => a.1 ≠ b.1 ∧ b.2 ≠ some a.1

namespace Linked

variable {next : Stamp} {links links' : List (Stamp × Option Stamp)}

theorem sublist (h : Linked next links) (hsub : links'.Sublist links) : Linked next links' where
  stamp_lt := fun l hl => h.stamp_lt l (hsub.subset hl)
  source_lt := fun l hl => h.source_lt l (hsub.subset hl)
  distinct := h.distinct.sublist hsub

theorem mono (h : Linked next links) (next' : Stamp) (hle : next.number ≤ next'.number) :
    Linked next' links where
  stamp_lt := fun l hl => Nat.lt_of_lt_of_le (h.stamp_lt l hl) hle
  source_lt := fun l hl s hs => Nat.lt_of_lt_of_le (h.source_lt l hl s hs) hle
  distinct := h.distinct

def Relinked (a b : Stamp × Option Stamp) : Prop :=
  b.1 = a.1 ∧ (b.2 = a.2 ∨ b.2 = none ∨ b.2 = some b.1)

theorem relink (h : Linked next links) (hrel : List.Forall₂ Relinked links links') :
    Linked next links' := by
  induction hrel with
  | nil => exact h
  | @cons a b as bs hab hrest ih =>
    have hcons := List.pairwise_cons.mp h.distinct
    have htail := ih (h.sublist (List.sublist_cons_self a as))
    have hstamp : b.1 = a.1 := hab.1
    refine ⟨?_, ?_, ?_⟩
    . intro l hl
      cases List.mem_cons.mp hl with
      | inl hl =>
        rw [hl, hstamp]
        exact h.stamp_lt a List.mem_cons_self
      | inr hl => exact htail.stamp_lt l hl
    . intro l hl s hs
      cases List.mem_cons.mp hl with
      | inl hl =>
        subst hl
        rcases hab.2 with h2 | h2 | h2
        . exact h.source_lt a List.mem_cons_self s (h2 ▸ hs)
        . simp [h2] at hs
        . have : s = a.1 := by simpa [h2, hstamp] using hs.symm
          rw [this]
          exact h.stamp_lt a List.mem_cons_self
      | inr hl => exact htail.source_lt l hl s hs
    . refine List.pairwise_cons.mpr ⟨?_, htail.distinct⟩
      intro l hl
      obtain ⟨i, hi, rfl⟩ := List.getElem_of_mem hl
      have hi' : i < as.length := hrest.length_eq ▸ hi
      obtain ⟨hs, hsource⟩ := hrest.get hi' hi
      simp only [List.get_eq_getElem] at hs hsource
      obtain ⟨hne, hsrc⟩ := hcons.1 as[i] (List.getElem_mem hi')
      rw [hstamp, hs]
      refine ⟨hne, ?_⟩
      rcases hsource with h2 | h2 | h2
      . rwa [h2]
      . simp [h2]
      . rw [h2, hs]
        simpa using hne.symm

theorem insert {xs ys : List (Stamp × Option Stamp)} (h : Linked next (xs ++ ys))
    (source : Option Stamp)
    (hsource : source = some next ∨ ∃ y ∈ ys, source = some y.1) :
    Linked next.next (xs ++ (next, source) :: ys) := by
  -- A new row takes the next stamp. It comes from itself or from a row that stands later.
  have hne : ∀ l ∈ xs ++ ys, l.1 ≠ next := by
    intro l hl heq
    have := h.stamp_lt l hl
    simp [heq] at this
  have hsrc : ∀ l ∈ xs ++ ys, l.2 ≠ some next := by
    intro l hl heq
    have := h.source_lt l hl next heq
    simp at this
  obtain ⟨hxs, hys, hxy⟩ := List.pairwise_append.mp h.distinct
  have hlast := h.mono next.next (Nat.le_succ _)
  refine ⟨?_, ?_, ?_⟩
  . intro l hl
    rcases List.mem_append.mp hl with hl | hl
    . exact hlast.stamp_lt l (by simp [hl])
    . rcases List.mem_cons.mp hl with hl | hl
      . rw [hl]
        exact Nat.lt_succ_self _
      . exact hlast.stamp_lt l (by simp [hl])
  . intro l hl s hs
    rcases List.mem_append.mp hl with hl | hl
    . exact hlast.source_lt l (by simp [hl]) s hs
    . rcases List.mem_cons.mp hl with hl | hl
      . subst hl
        rcases hsource with hn | ⟨y, hy, hn⟩
        . have : s = next := by simpa [hn] using hs.symm
          rw [this]
          exact Nat.lt_succ_self _
        . have : s = y.1 := by simpa [hn] using hs.symm
          rw [this]
          exact hlast.stamp_lt y (by simp [hy])
      . exact hlast.source_lt l (by simp [hl]) s hs
  . refine List.pairwise_append.mpr ⟨hxs, List.pairwise_cons.mpr ⟨?_, hys⟩, ?_⟩
    . intro y hy
      exact ⟨(hne y (by simp [hy])).symm, hsrc y (by simp [hy])⟩
    . intro x hx l hl
      rcases List.mem_cons.mp hl with hl | hl
      . subst hl
        refine ⟨hne x (by simp [hx]), ?_⟩
        rcases hsource with hn | ⟨y, hy, hn⟩
        . rw [hn]
          simpa using (hne x (by simp [hx])).symm
        . rw [hn]
          simpa using (hxy x hx y hy).1.symm
      . exact hxy x hx l hl

end Linked

structure Coherent (next : Stamp) (rows : List Row) : Prop where
  linked : Linked next (rows.map fun row => link row.line)
  proper : ∀ row ∈ rows, row.line.Proper

theorem proper_bare {row : Row} : (bare row).Proper ↔ row.line.Proper := by
  constructor
  . intro h
    exact ⟨by simpa [bare] using h.arity, h.backward, h.locked⟩
  . intro h
    exact ⟨by simpa [bare] using h.arity, h.backward, h.locked⟩

theorem proper_goalLine (goal : Formula) (stamp source : Stamp) :
    (goalLine goal stamp source).Proper := by
  have := Line.proper_new goal stamp .backward true true
  exact ⟨this.arity, this.backward, this.locked⟩

theorem proper_assumptionLine (premise : Formula) (stamp source : Stamp) :
    (assumptionLine premise stamp source).Proper := by
  refine ⟨by simp [assumptionLine, Line.new], ?_, fun _ => rfl⟩
  intro h
  simp [assumptionLine, Line.new, Step.assumption, Step.ofRule, Step.setRule] at h

theorem Retains.link_eq {rows : List Row} {row : Row} {line : Line} (h : Retains rows row line) :
    link line = link row.line := by
  rw [link, link, h.stamp, h.source]

section Moves

variable {a b : Line}

theorem Variant.relinked (h : Variant a b) : Linked.Relinked (link a) (link b) := by
  cases h with
  | same | shown | filled => exact ⟨rfl, .inl rfl⟩
  | unlinked | reset => exact ⟨rfl, .inr (.inl rfl)⟩
  | linked => exact ⟨rfl, .inr (.inr rfl)⟩
  | copied rows row heditable line hline label =>
    obtain ⟨step, arguments, rfl⟩ := hline.exists_eq
    exact ⟨rfl, .inl rfl⟩

theorem Variant.proper (h : Variant a b) (ha : a.Proper) : b.Proper := by
  cases h with
  | same => exact ha
  | shown | unlinked | linked => exact ⟨ha.arity, ha.backward, ha.locked⟩
  | filled line arguments hlen => exact ⟨hlen, ha.backward, ha.locked⟩
  | reset => exact Line.proper_new ..
  | copied rows row heditable line hline label =>
    have hcopied := copied_of_altered (proper_bare.mp ha) heditable hline
    exact proper_bare.mpr hcopied.proper

variable {before after : List Line} {stamp : Stamp} {line : Line}

theorem Fresh.link_eq (h : Fresh before after stamp line) :
    link line = (stamp, some stamp) ∨ ∃ target ∈ after, link line = (stamp, some target.stamp) := by
  cases h with
  | goal target htarget | assumption target htarget => exact .inr ⟨target, htarget, rfl⟩
  | conclusion => exact .inl rfl

theorem Fresh.proper (h : Fresh before after stamp line)
    (hlines : ∀ line ∈ before ++ after, line.Proper) : line.Proper := by
  cases h with
  | goal => exact proper_goalLine ..
  | assumption => exact proper_assumptionLine ..
  | conclusion rows row hrow heditable line hline label conclusion fixed editable =>
    have hcopied := copied_of_altered (proper_bare.mp (hlines _ hrow)) heditable hline
    exact proper_bare.mpr ⟨hcopied.proper.arity, hcopied.proper.backward,
      fun hrule => absurd hrule hcopied.rule_ne_assumption⟩

theorem Linked.of_moves {o o' : Outline} (h : Linked o.stamp (o.lines.map link))
    (hmoves : Outline.Moves o o') : Linked o'.stamp (o'.lines.map link) := by
  induction hmoves with
  | refl => exact h
  | tail _ hmove ih =>
    cases hmove with
    | drop lines kept stamp hsub => exact ih.sublist (hsub.map link)
    | revise lines lines' stamp hrel =>
      apply ih.relink
      rw [List.forall₂_map_left_iff, List.forall₂_map_right_iff]
      exact hrel.imp fun _ _ h => h.relinked
    | insert before after stamp line hfresh =>
      dsimp only at ih ⊢
      rw [List.map_append] at ih
      rw [List.map_append, List.map_cons]
      rcases hfresh.link_eq with hlink | ⟨target, htarget, hlink⟩
      . rw [hlink]
        exact ih.insert _ (.inl rfl)
      . rw [hlink]
        exact ih.insert _ (.inr ⟨link target, List.mem_map_of_mem htarget, rfl⟩)

end Moves

variable {d next : Derivation}

theorem coherent_iff :
    Coherent d.stamp d.rows
      ↔
    Linked d.sketch.stamp (d.sketch.lines.map link) ∧ ∀ line ∈ d.sketch.lines, line.Proper := by
  have hlinks : (d.rows.map fun row => link row.line) = d.sketch.lines.map link := by
    rw [sketch, outline, List.map_map]
    rfl
  have hproper : (∀ line ∈ d.sketch.lines, line.Proper) ↔ ∀ row ∈ d.rows, row.line.Proper := by
    simp only [sketch, outline, List.forall_mem_map, proper_bare]
  rw [hproper, ← hlinks]
  exact ⟨fun h => ⟨h.linked, h.proper⟩, fun h => ⟨h.1, h.2⟩⟩

theorem coherent_of_apply_eq_ok {edit : Edit} (h : Coherent d.stamp d.rows)
    (happly : d.apply edit = .ok next) : Coherent next.stamp next.rows := by
  obtain ⟨hlinked, hproper⟩ := coherent_iff.mp h
  have hmoves := moves_of_apply_eq_ok happly
  refine coherent_iff.mpr ⟨hlinked.of_moves hmoves, ?_⟩
  exact hmoves.forall_lines (fun _ _ h => h.proper) (fun _ _ _ _ h => h.proper) hproper

theorem coherent_begin (start goal : Formula) (direction : Direction) :
    Coherent (begin start goal direction).stamp (begin start goal direction).rows where
  linked := by
    refine ⟨?_, ?_, ?_⟩
    . simp [begin, link, Line.new]
    . simp [begin, link, Line.new]
    . simp [begin, link, Line.new]
  proper := by
    simp only [begin, List.mem_cons, List.not_mem_nil, or_false, forall_eq_or_imp, forall_eq]
    refine ⟨⟨by simp [Line.new], ?_, fun _ => rfl⟩, Line.proper_new ..⟩
    simp [Line.new, Step.assumption, Step.ofRule, Step.setRule]

section Generated

variable {stamp : Stamp} {rows : List Row} {i j n : Nat} {root : Stamp}

theorem mem_generatedFrom {stamps : List Stamp} (hj : j ∈ generatedFrom rows stamps) :
    ∃ row, rows[j]? = some row
      ∧ ∃ source ∈ stamps, row.line.source = some source ∧ source ≠ row.line.stamp := by
  unfold generatedFrom at hj
  obtain ⟨-, hany⟩ := List.mem_filter.mp hj
  obtain ⟨row, hrow, hany⟩ := (Option.any_eq_true _ _).mp hany
  obtain ⟨source, hsource, hmem⟩ := (Option.any_eq_true _ _).mp hany
  simp only [Bool.and_eq_true, List.contains_iff_mem, bne_iff_ne] at hmem
  exact ⟨row, hrow, source, hmem.1, hsource, hmem.2⟩

theorem Coherent.lt_of_source (h : Coherent stamp rows) {a b : Row} (ha : rows[i]? = some a)
    (hb : rows[j]? = some b) (hsource : b.line.source = some a.line.stamp)
    (hne : a.line.stamp ≠ b.line.stamp) : j < i := by
  rcases Nat.lt_trichotomy i j with hij | hij | hij
  . have hpair := (List.pairwise_map.mp h.linked.distinct)
    obtain ⟨hi, rfl⟩ := List.getElem?_eq_some_iff.mp ha
    obtain ⟨hj, rfl⟩ := List.getElem?_eq_some_iff.mp hb
    exact absurd hsource (List.pairwise_iff_getElem.mp hpair i j hi hj hij).2
  . subst hij
    have : a = b := by simpa [ha] using hb
    exact absurd (congrArg (·.line.stamp) this) hne
  . exact hij

theorem Coherent.lt_of_mem_reachedWithin (h : Coherent stamp rows) {row : Row}
    (hrow : rows[i]? = some row) (hj : j ∈ reachedWithin rows row.line.stamp n) : j < i := by
  induction n generalizing j with
  | zero => simp [reachedWithin] at hj
  | succ n ih =>
    obtain ⟨b, hb, source, hmem, hsource, hne⟩ := mem_generatedFrom hj
    rcases List.mem_cons.mp hmem with rfl | hmem
    . exact h.lt_of_source hrow hb hsource hne
    . obtain ⟨k, hk, hstamp⟩ := List.mem_filterMap.mp hmem
      obtain ⟨a, ha, rfl⟩ := Option.map_eq_some_iff.mp hstamp
      exact Nat.lt_trans (h.lt_of_source ha hb hsource hne) (ih hk)

theorem Coherent.lt_of_mem_generated (h : Coherent stamp rows) {row : Row}
    (hrow : rows[i]? = some row) (hj : j ∈ generated rows row.line.stamp) : j < i :=
  h.lt_of_mem_reachedWithin hrow hj

theorem pairwise_reachedWithin (rows : List Row) (root : Stamp) (n : Nat) :
    (reachedWithin rows root n).Pairwise (· < ·) := by
  cases n with
  | zero => exact List.Pairwise.nil
  | succ n => exact List.pairwise_lt_range.filter _

theorem exists_source_of_mem_reachedWithin (hj : j ∈ reachedWithin rows root n) :
    ∃ row, rows[j]? = some row ∧ row.line.source ≠ none := by
  cases n with
  | zero => simp [reachedWithin] at hj
  | succ n =>
    obtain ⟨row, hrow, source, -, hsource, -⟩ := mem_generatedFrom hj
    exact ⟨row, hrow, by simp [hsource]⟩

section Links

variable {rows' : List Row}
  (hlinks : (rows.map fun row => link row.line) = rows'.map fun row => link row.line)
include hlinks

theorem getElem?_map_eq_of_links {α : Type} (f : Stamp × Option Stamp → α) (k : Nat) :
    rows[k]?.map (fun row => f (link row.line)) = rows'[k]?.map fun row => f (link row.line) := by
  have hget := congrArg (fun links => links[k]?.map f) hlinks
  simpa [Function.comp_def] using hget

theorem generatedFrom_eq_of_links (stamps : List Stamp) :
    generatedFrom rows stamps = generatedFrom rows' stamps := by
  have hlen : rows.length = rows'.length := by simpa using congrArg List.length hlinks
  unfold generatedFrom
  rw [hlen]
  apply List.filter_congr
  intro k _
  have hget := getElem?_map_eq_of_links hlinks
    (fun l => l.2.any fun source => stamps.contains source && source != l.1) k
  simpa [link, Option.any_map, Function.comp_def] using congrArg (·.any id) hget

theorem reachedWithin_eq_of_links (root : Stamp) (n : Nat) :
    reachedWithin rows root n = reachedWithin rows' root n := by
  induction n with
  | zero => rfl
  | succ n ih =>
    have hstamps : (reachedWithin rows' root n).filterMap (fun k => rows[k]?.map (·.line.stamp))
        = (reachedWithin rows' root n).filterMap fun k => rows'[k]?.map (·.line.stamp) := by
      apply List.filterMap_congr
      intro k _
      exact getElem?_map_eq_of_links hlinks Prod.fst k
    simp only [reachedWithin]
    rw [ih, hstamps, generatedFrom_eq_of_links hlinks]

theorem generated_eq_of_links (root : Stamp) : generated rows root = generated rows' root := by
  have hlen : rows.length = rows'.length := by simpa using congrArg List.length hlinks
  rw [generated, generated, hlen, reachedWithin_eq_of_links hlinks]

end Links

end Generated

end ProofDesk.Derivation
