import ProofDesk.Proofs.Edit.Pin
import ProofDesk.Proofs.Edit.Room

/-!
This module contains the regeneration of the goals of a backward line, as a revision: they are
supplied by lines before it, or aimed for in a new subproof.
-/

namespace ProofDesk.Derivation

section Supply

variable {faithful : Prop} {origin earlier later before weeds after new : List Row} {base : Label}
  {line : Line} {goals : List Formula} {arguments : List (Option Label)} {stamp source : Stamp}

theorem arguments_goalLine (goal : Formula) (stamp source : Stamp) :
    (goalLine goal stamp source).arguments = [] := by
  rfl

theorem rule_goalLine (goal : Formula) (stamp source : Stamp) :
    (goalLine goal stamp source).step.rule = none := by
  rfl

theorem arguments_assumptionLine (premise : Formula) (stamp source : Stamp) :
    (assumptionLine premise stamp source).arguments = [] := by
  rfl

theorem rule_assumptionLine (premise : Formula) (stamp source : Stamp) :
    (assumptionLine premise stamp source).step.rule = some .assumption := by
  rfl

theorem line_makeRoom_blank (base label : Label) (n : Nat) (line : Line) :
    (makeRoom base n ⟨label, blank line⟩).line = blank line := by
  unfold makeRoom
  split <;> rfl

theorem Pinned.supplies
    (h : Pinned faithful origin ⟨base, blank line⟩ earlier later before weeds after)
    {goal : Formula} {arg : Option Label} (hs : Supplies (before ++ weeds) new base goal arg) :
    Supplies earlier new base goal arg := by
  -- The supplier of a goal is a live row: a weed is not visible.
  obtain ⟨row, harg, hgoal, hrow⟩ := hs
  refine ⟨row, harg, hgoal, ?_⟩
  cases hrow with
  | inr hrow => exact .inr hrow
  | inl hrow =>
    obtain ⟨hrow, hvisible⟩ := hrow
    refine .inl ⟨?_, hvisible⟩
    cases List.mem_append.mp hrow with
    | inr hrow =>
      have := Label.not_isInside_of_visibleAt hvisible
      simp [h.inside row hrow] at this
    | inl hrow =>
      cases h.overgrown_before.mem_or_exists hrow with
      | inl hrow => exact hrow
      | inr hheader =>
        obtain ⟨header, hheader, hrule, hin⟩ := hheader
        have := Label.isInside_of_visibleAt hvisible hin
        simp [h.pruned header (by simp [hheader]) hrule ⟨base, blank line⟩ (by simp)] at this

theorem Pinned.head?_append {pin : Row}
    (h : Pinned faithful origin pin earlier later before weeds after) (xs ys : List Row) :
    (before ++ xs).head? = (earlier ++ ys).head? := by
  obtain ⟨first, earlier, rfl⟩ := List.exists_cons_of_ne_nil h.ne_nil
  rw [List.head?_append, List.head?_append, h.head?]
  rfl

theorem Pinned.not_isInside
    (h : Pinned faithful origin ⟨base, blank line⟩ earlier later before weeds after) :
    ∀ x ∈ earlier ++ ⟨base, blank line⟩ :: later, x.label.isInside base = false :=
  h.pruned ⟨base, blank line⟩ (by simp) (by simp [rule_blank])

theorem NewGoals.label_eq (hnew : NewGoals base stamp source goals new) (hrange : InRange new)
    {t : Nat} {r : Row} (hr : new[t]? = some r) : r.label = base.addLast t := by
  obtain ⟨goal, -, rfl⟩ := hnew t r hr
  exact Label.moveLast_ofNat (hrange _ (List.mem_of_getElem? hr))

section Goals

variable (hlaid : Laid (earlier ++ ⟨base, blank line⟩ :: later))
  (hearlier : earlier ≠ []) (hnew : NewGoals base stamp source goals new)
  (hrange : InRange (new ++ (⟨base, blank line⟩ :: later).map (makeRoom base new.length)))
include hlaid hnew hrange

include hearlier in
theorem inserts_newGoals :
    Inserts earlier new ((⟨base, blank line⟩ :: later).map (makeRoom base new.length)) := by
  have hrange₁ : InRange new := fun r hr => hrange r (List.mem_append_left _ hr)
  have hrange₂ : InRange ((⟨base, blank line⟩ :: later).map (makeRoom base new.length)) :=
    fun r hr => hrange r (List.mem_append_right _ hr)
  have hline : ∀ r ∈ new, ∃ goal n, r.line = goalLine goal n source := by
    intro r hr
    obtain ⟨t, ht⟩ := List.getElem?_of_mem hr
    obtain ⟨goal, -, rfl⟩ := hnew t r ht
    exact ⟨goal, _, rfl⟩
  refine ⟨?_, ?_, hearlier, by simp, ?_, ?_, ?_, ?_⟩
  . exact ordered_insert_makeRoom hlaid hrange₂ (fun t r => hnew.label_eq hrange₁) rfl
  . intro r hr
    obtain ⟨t, ht⟩ := List.getElem?_of_mem hr
    have hlabel := hnew.label_eq hrange₁ ht
    rw [hlabel]
    apply (hlaid.valid ⟨base, blank line⟩ (by simp)).addLast
    rw [← hlabel]
    simp only [← Label.lt_maxPart_iff]
    exact hrange₁ r hr
  all_goals
    intro r hr
    obtain ⟨goal, n, hline⟩ := hline r hr
    simp [hline, arguments_goalLine, rule_goalLine]

theorem replaces_supplied (hargs : List.Forall₂ (Supplies earlier new base) goals arguments)
    (hreduce : line.step.reduce [line.formula] = .ok goals) (heditable : line.editable = true)
    (hrule : line.step.rule ≠ some .directProof) (hrule' : line.step.rule ≠ some .assumption) :
    Replaces faithful
      (earlier ++ new ++ (⟨base, blank line⟩ :: later).map (makeRoom base new.length))
      (makeRoom base new.length ⟨base, blank line⟩) { line with arguments } := by
  have hrange₁ : InRange new := fun r hr => hrange r (List.mem_append_left _ hr)
  have hrange₂ : InRange ((⟨base, blank line⟩ :: later).map (makeRoom base new.length)) :=
    fun r hr => hrange r (List.mem_append_right _ hr)
  have hbase : (makeRoom base new.length ⟨base, blank line⟩).label = base.addLast new.length := by
    rw [label_makeRoom hrange₂ List.mem_cons_self, Label.moveFrom_add_self]
  have hcited : ∀ goal arg, Supplies earlier new base goal arg →
      ∃ row ∈ earlier ++ new, arg = some row.label ∧ row.line.formula = goal
        ∧ row.label.visibleAt (base.addLast new.length) := by
    rintro goal arg ⟨row, harg, hgoal, hrow⟩
    refine ⟨row, ?_, harg, hgoal, ?_⟩
    . simp only [List.mem_append]
      exact hrow.imp_left (·.1)
    . cases hrow with
      | inl hrow => exact Label.visibleAt_addLast hrow.2
      | inr hrow =>
        obtain ⟨t, ht⟩ := List.getElem?_of_mem hrow
        rw [hnew.label_eq hrange₁ ht]
        exact Label.addLast_visibleAt_addLast (hlaid.valid ⟨base, blank line⟩ (by simp)).1
          (List.getElem?_eq_some_iff.mp ht).1
  have hvisible : ∀ label, some label ∈ arguments →
      (∃ r ∈ earlier ++ new, r.label = label) ∧ label.visibleAt (base.addLast new.length) := by
    intro label hlabel
    obtain ⟨goal, -, hs⟩ := exists_left_of_forall₂ hargs hlabel
    obtain ⟨row, hrow, harg, -, hv⟩ := hcited goal _ hs
    obtain rfl : label = row.label := by simpa using harg
    exact ⟨⟨row, hrow, rfl⟩, hv⟩
  have hline := line_makeRoom_blank base base new.length line
  refine ⟨by rw [hline]; rfl, by rw [hline]; exact heditable, hrule', ?_, ?_, ?_, ?_, ?_⟩
  . intro label hlabel
    obtain ⟨⟨r, hr, hrl⟩, hv⟩ := hvisible label hlabel
    exact ⟨⟨r, List.mem_append_left _ hr, hrl⟩, .inl (hbase ▸ hv)⟩
  . intro h
    exact absurd h hrule
  . intro k hk
    have hv := (hvisible _ (List.mem_of_head? hk)).2
    have hin := Label.isInside_child (base.addLast new.length) k
    rw [hbase] at hv
    simp [Label.not_isInside_of_visibleAt hv] at hin
  . intro _
    refine ⟨goals, hreduce, holdGoals_of_forall₂ (hargs.imp ?_)⟩
    intro goal arg hs
    obtain ⟨row, hrow, harg, hgoal, -⟩ := hcited goal arg hs
    exact ⟨row, List.mem_append_left _ hrow, harg, hgoal⟩
  . intro _
    rw [hline]
    exact .inl rfl

end Goals

theorem Overgrown.map_makeRoom {live rows : List Row} (h : Overgrown live rows)
    (hne : ∀ row ∈ live, row.label ≠ base) (n : Nat) :
    Overgrown (live.map (makeRoom base n)) (rows.map (makeRoom base n)) := by
  unfold makeRoom
  split
  . apply h.map
    . intro row _
      rfl
    . intro header hheader weed hin
      simp only [Row.shift, Label.shift_eq_moveFrom]
      exact Label.moveFrom_isInside _ (hne header hheader) hin
  . simpa using h

theorem Pinned.exists_yields_supply
    (h : Pinned faithful origin ⟨base, blank line⟩ earlier later before weeds after)
    (hlaid : Laid origin) (hnew : NewGoals base stamp source goals new)
    (hargs : List.Forall₂ (Supplies (before ++ weeds) new base) goals arguments)
    (hreduce : line.step.reduce [line.formula] = .ok goals) (heditable : line.editable = true)
    (hrule : line.step.rule ≠ some .directProof) (hrule' : line.step.rule ≠ some .assumption)
    {label : Label} (hlabel : label = (makeRoom base new.length ⟨base, blank line⟩).label)
    (hrange : InRange (new ++ ⟨label, { line with arguments }⟩
      :: after.map (makeRoom base new.length))) :
    ∃ live, Yields faithful origin live
      (before ++ weeds ++ new ++ ⟨label, { line with arguments }⟩
        :: after.map (makeRoom base new.length)) := by
  have hlaid := hlaid.of_revised h.revised
  have hrange' : InRange (new ++ (⟨base, blank line⟩ :: later).map (makeRoom base new.length)) := by
    intro r hr
    simp only [List.mem_append, List.map_cons, List.mem_cons, List.mem_map] at hr
    rcases hr with hr | rfl | ⟨r, hr, rfl⟩
    . exact hrange r (by simp [hr])
    . rw [← hlabel]
      exact hrange ⟨label, { line with arguments }⟩ (by simp)
    . have := List.mem_map_of_mem (f := makeRoom base new.length) (h.overgrown_after.subset hr)
      exact hrange _ (by simp [this])
  have hroom : Revision faithful _ _ := revision_makeRoom hlaid
    (fun r hr => hrange' r (List.mem_append_right _ hr)) h.not_isInside
  have hinsert : Revision faithful _ _ := .insert _ _ _
    (inserts_newGoals hlaid h.ne_nil hnew hrange')
  have hreplace : Revision faithful _ _ := .replace _ _ _ _
    (replaces_supplied hlaid hnew hrange' (hargs.imp fun _ _ => h.supplies) hreduce heditable hrule
      hrule')
  rw [← hlabel] at hreplace
  refine ⟨_, .tail (.tail (.tail h.revised hroom) hinsert) hreplace, ?_, ?_⟩
  . have hne : ∀ row ∈ later, row.label ≠ base :=
      fun row hrow => hlaid.ordered.label_ne_of_mem (List.mem_append_right _ hrow)
    have hlater := h.overgrown_after.map_makeRoom hne new.length
    have hweeds : Weeds (new ++ ⟨label, { line with arguments }⟩
        :: later.map (makeRoom base new.length)) weeds := by
      intro weed hweed
      cases hnew' : new with
      | nil =>
        refine ⟨⟨label, { line with arguments }⟩, by simp, hrule, ?_⟩
        simpa [hlabel, hnew', makeRoom_zero] using h.inside weed hweed
      | cons r rest =>
        have hr : new[0]? = some r := by simp [hnew']
        have hrlabel := hnew.label_eq (fun r hr => hrange' r (List.mem_append_left _ hr)) hr
        obtain ⟨goal, -, hgoal⟩ := hnew 0 r hr
        refine ⟨r, by simp, ?_, ?_⟩
        . simp [hgoal, rule_goalLine]
        . rw [hrlabel, Label.addLast_zero]
          exact h.inside weed hweed
    have htail := ((Overgrown.refl new).append (.live _ hlater)).weeds hweeds
    simpa using h.overgrown_before.append htail
  . simp only [List.append_assoc]
    exact h.head?_append ..

end Supply

section Open

variable {faithful : Prop} {origin earlier later before weeds after : List Row} {base : Label}
  {line : Line}

theorem Pinned.not_isInside_of_mem_before
    (h : Pinned faithful origin ⟨base, blank line⟩ earlier later before weeds after)
    (hlaid : Laid origin) {x : Row} (hx : x ∈ before) : x.label.isInside base = false := by
  cases h.overgrown_before.mem_or_exists hx with
  | inl hx => exact h.not_isInside x (List.mem_append_left _ hx)
  | inr hheader =>
    obtain ⟨header, hheader, hrule, hin⟩ := hheader
    rw [← Bool.not_eq_true]
    intro hin'
    have hlaid := hlaid.of_revised h.revised
    rcases Label.eq_or_isInside_or_isInside hin hin' with heq | hin | hin
    . exact hlaid.ordered.label_ne_of_mem (List.mem_append_left _ hheader) heq
    . simp [h.not_isInside header (List.mem_append_left _ hheader)] at hin
    . simp [h.pruned header (by simp [hheader]) hrule ⟨base, blank line⟩ (by simp)] at hin

theorem Pinned.exists_removeInside_eq
    (h : Pinned faithful origin ⟨base, blank line⟩ earlier later before weeds after)
    (hlaid : Laid origin) (arguments : List (Option Label)) :
    ∃ before' after' arguments',
      removeInside base (before ++ weeds).length
          (before ++ weeds ++ ⟨base, { line with arguments }⟩ :: after)
          = (before' ++ ⟨base, { line with arguments := arguments' }⟩ :: after', before'.length)
        ∧ Pinned faithful origin ⟨base, blank line⟩ earlier later before' [] after' := by
  -- Exactly the weeds of the line are taken out.
  induction hn : weeds.length generalizing before weeds after arguments with
  | zero =>
    obtain rfl := List.length_eq_zero_iff.mp hn
    refine ⟨before, after, arguments, ?_, h⟩
    obtain rfl | ⟨init, last, rfl⟩ := List.eq_nil_or_concat' before
    . rfl
    . have hlast := h.not_isInside_of_mem_before hlaid (x := last) (by simp)
      rw [List.append_nil, List.length_append, List.length_singleton, removeInside,
        List.append_assoc, List.singleton_append, getElem?_split]
      simp [hlast]
  | succ n ih =>
    obtain rfl | ⟨weeds, weed, rfl⟩ := List.eq_nil_or_concat' weeds
    . simp at hn
    have hin := h.inside weed (by simp)
    have hlaid' := hlaid.of_revised h.revised
    have hpin : (⟨base, blank line⟩ : Row) ∈ earlier ++ ⟨base, blank line⟩ :: later := by simp
    have hrule : (blank line).step.rule ≠ some .directProof := by simp [rule_blank]
    have hpinned : Pinned faithful origin ⟨base, blank line⟩ earlier later
        (before.map (Row.forget weed.label)) (weeds.map (Row.forget weed.label))
        (after.map (closeUp weed.label)) := by
      refine ⟨h.revised, h.pruned, ?_, ?_, ?_, ?_, h.ne_nil⟩
      . exact hlaid'.overgrown_map_forget h.pruned hpin hrule hin (List.subset_append_left ..)
          h.overgrown_before
      . simp only [List.forall_mem_map]
        exact fun w hw => h.inside w (by simp [hw])
      . exact hlaid'.overgrown_map_closeUp h.pruned hpin hrule hin (by simp) h.overgrown_after
      . rw [List.head?_map, h.head?, ← List.head?_map,
          hlaid'.map_forget_eq_self h.pruned hpin hrule hin (List.subset_append_left ..)]
    obtain ⟨before', after', arguments', heq, hpinned'⟩ := ih hpinned
      (closeUp weed.label ⟨base, { line with arguments }⟩).line.arguments (by simpa using hn)
    refine ⟨before', after', arguments', ?_, hpinned'⟩
    rw [← heq]
    have hbase : closeUp weed.label ⟨base, { line with arguments }⟩ = ⟨base, { line with
        arguments := (closeUp weed.label ⟨base, { line with arguments }⟩).line.arguments }⟩ := by
      have : base.shift weed.label (-1) = base := by
        rw [Label.shift_eq_moveFrom]
        exact Label.moveFrom_of_not_isInside _ hin (Label.isInside_irrefl base)
      simp [closeUp, Row.shift, Row.forget, this]
    rw [← List.append_assoc, List.length_append, List.length_singleton, removeInside,
      List.append_assoc, List.singleton_append, getElem?_split, removeRow_split, List.map_cons,
      hbase]
    simp [hin]

section Subproof

variable (hlaid : Laid (earlier ++ ⟨base, blank line⟩ :: later))
  (hinside : ∀ x ∈ earlier ++ ⟨base, blank line⟩ :: later, x.label.isInside base = false)
  (hearlier : earlier ≠ []) (premise goal : Formula) (stamp stamp' source : Stamp)
include hlaid hinside hearlier

theorem inserts_subproof :
    Inserts earlier
      [⟨base.child 1, assumptionLine premise stamp source⟩,
        ⟨base.child 2, goalLine goal stamp' source⟩]
      (⟨base, blank line⟩ :: later) := by
  have hvalid := hlaid.valid ⟨base, blank line⟩ (by simp)
  refine ⟨?_, ?_, hearlier, by simp, ?_, ?_, ?_, ?_⟩
  . rw [List.append_assoc, List.cons_append, List.singleton_append]
    exact hlaid.ordered.insert_children (fun x hx => hinside x (List.mem_append_left _ hx)) rfl rfl
  . simp only [List.mem_cons, List.not_mem_nil, or_false, forall_eq_or_imp, forall_eq]
    exact ⟨hvalid.child (by decide) (by decide), hvalid.child (by decide) (by decide)⟩
  . simp [arguments_goalLine, arguments_assumptionLine]
  . simp [rule_goalLine, rule_assumptionLine]
  . simp [rule_goalLine, rule_assumptionLine, arguments_assumptionLine]
  . simp only [List.mem_cons, List.not_mem_nil, or_false, forall_eq_or_imp, forall_eq,
      rule_goalLine, reduceCtorEq, false_implies, and_true]
    intro _
    refine ⟨?_, ?_⟩
    . have := Label.depth_lt_of_isInside (Label.isInside_child base 1)
      have := List.length_pos_iff.mpr hvalid.1
      simp only [Label.depth] at *
      omega
    . intro r hr k hk
      obtain ⟨hk, -⟩ := Label.child_injective hk
      simp only [List.mem_append, List.mem_cons, List.not_mem_nil, or_false] at hr
      rcases hr with (hr | rfl | rfl) | rfl | hr
      . exact absurd hk.symm (hlaid.ordered.label_ne_of_mem (List.mem_append_left _ hr))
      . exact absurd hk.symm (Label.child_ne base 1)
      . exact absurd hk.symm (Label.child_ne base 2)
      . rfl
      . exact absurd hk.symm (hlaid.ordered.label_ne_of_mem (List.mem_append_right _ hr))

omit hlaid hearlier in
theorem replaces_subproof (hreduce : line.step.reduce [line.formula] = .ok [premise, goal])
    (heditable : line.editable = true) (hrule : line.step.rule = some .directProof) :
    Replaces faithful
      (earlier ++
        [⟨base.child 1, assumptionLine premise stamp source⟩,
          ⟨base.child 2, goalLine goal stamp' source⟩] ++ ⟨base, blank line⟩ :: later)
      ⟨base, blank line⟩
      { line with arguments := [some (base.child 1), some (base.child 2)] } := by
  have hchild : ∀ label, some label ∈ [some (base.child 1), some (base.child 2)] →
      label = base.child 1 ∨ label = base.child 2 := by
    intro label hlabel
    simpa using hlabel
  refine ⟨rfl, heditable, by simp [hrule], ?_, ?_, ?_, ?_, ?_⟩
  . intro label hlabel
    rcases hchild label hlabel with rfl | rfl
    . exact ⟨⟨⟨base.child 1, assumptionLine premise stamp source⟩, by simp, rfl⟩, .inr ⟨1, rfl⟩⟩
    . exact ⟨⟨⟨base.child 2, goalLine goal stamp' source⟩, by simp, rfl⟩, .inr ⟨2, rfl⟩⟩
  . intro _ _ label hlabel
    rcases hchild label hlabel with rfl | rfl
    . exact ⟨1, rfl⟩
    . exact ⟨2, rfl⟩
  . intro k hk
    right
    intro a ha hassumption n hn
    have hk : base.child 1 = base.child k := by simpa using hk
    have hin : a.label.isInside base := by
      rw [hn]
      exact Label.isInside_child base n
    simp only [List.mem_append, List.mem_cons, List.not_mem_nil, or_false] at ha
    rcases ha with (ha | rfl | rfl) | rfl | ha
    . simp [hinside a (by simp [ha])] at hin
    . exact hk
    . simp [rule_goalLine] at hassumption
    . simp [Label.isInside_irrefl] at hin
    . simp [hinside a (by simp [ha])] at hin
  . intro _
    refine ⟨[premise, goal], hreduce, holdGoals_of_forall₂ (.cons ?_ (.cons ?_ .nil))⟩
    . exact ⟨⟨base.child 1, assumptionLine premise stamp source⟩, by simp, rfl, rfl⟩
    . exact ⟨⟨base.child 2, goalLine goal stamp' source⟩, by simp, rfl, rfl⟩
  . exact fun _ => .inl rfl

end Subproof

theorem Pinned.exists_yields_open
    (h : Pinned faithful origin ⟨base, blank line⟩ earlier later before [] after)
    (hlaid : Laid origin) {premise goal : Formula}
    (hreduce : line.step.reduce [line.formula] = .ok [premise, goal])
    (heditable : line.editable = true) (hrule : line.step.rule = some .directProof)
    (stamp stamp' source : Stamp) :
    ∃ live, Yields faithful origin live
      (before ++ ⟨base.child 1, assumptionLine premise stamp source⟩
        :: ⟨base.child 2, goalLine goal stamp' source⟩
        :: ⟨base, { line with arguments := [some (base.child 1), some (base.child 2)] }⟩
        :: after) := by
  have hlaid := hlaid.of_revised h.revised
  have hinsert : Revision faithful _ _ := .insert _ _ _
    (inserts_subproof hlaid h.not_isInside h.ne_nil premise goal stamp stamp' source)
  have hreplace : Revision faithful _ _ := .replace _ _ _ _
    (replaces_subproof h.not_isInside premise goal stamp stamp' source hreduce heditable hrule)
  refine ⟨_, .tail (.tail h.revised hinsert) hreplace, ?_, ?_⟩
  . rw [List.append_assoc]
    exact h.overgrown_before.append (.live _ (.live _ (.live _ h.overgrown_after)))
  . simp only [List.append_assoc]
    exact h.head?_append ..

end Open

section Expand

variable {faithful : Prop} {d next : Derivation} {row : Row} {line : Line} {i : Nat}

theorem generated_setLine {before after : List Row} {line' : Line}
    (hlink : link line' = link row.line) (root : Stamp) :
    generated (before ++ ⟨row.label, line'⟩ :: after) root
      =
    generated (before ++ row :: after) root := by
  apply generated_eq_of_links
  simp [hlink]

theorem exists_yields_expand (hrow : d.rows[i]? = some row) (hlaid : Laid d.rows)
    (hpruned : Pruned d.rows) (hcoherent : Coherent d.stamp d.rows)
    (hcopied : Copied d.rows row line) (heditable : row.line.editable = true)
    (hclash : clashesAround (d.setLine i (blank line)).rows i
      (generated (d.setLine i (blank line)).rows row.line.stamp) = false)
    (hexpanded : Expanded d i line row.line.stamp next) (hrange : InRange next.rows) :
    ∃ live, Yields faithful d.rows live next.rows := by
  obtain ⟨before, after, hrows, rfl⟩ := exists_split_of_getElem? hrow
  have hset : ∀ line', (d.setLine before.length line').rows
      = before ++ ⟨row.label, line'⟩ :: after := by
    intro line'
    rw [setLine, hrows, modify_split]
  have hlink := hcopied.link_eq
  have hlink' : link (blank line) = link row.line := hlink
  have heditable' : line.editable = true := by rw [hcopied.editable, heditable]
  rw [hset, generated_setLine hlink'] at hclash
  rw [hrows] at hlaid hpruned hcoherent hcopied ⊢
  obtain ⟨earlier, later, before', weeds, after', base, arguments, hremove, hpinned⟩ :=
    exists_pinned faithful hlaid hcoherent hpruned hcopied.toRetains heditable hclash
  cases hexpanded with
  | opened rows j pin premise goal heq hpin hreduce hrule =>
    rw [hset, generated_setLine hlink, hremove, Prod.mk.injEq] at heq
    obtain ⟨rfl, rfl⟩ := heq
    rw [getElem?_split, Option.some.injEq] at hpin
    subst hpin
    obtain ⟨before'', after'', arguments', hinside, hpinned'⟩ :=
      hpinned.exists_removeInside_eq hlaid arguments
    rw [openSubproof_eq hinside]
    exact hpinned'.exists_yields_open hlaid hreduce heditable' hrule ..
  | supplied rows j pin goals heq hpin hreduce hrule =>
    rw [hset, generated_setLine hlink, hremove, Prod.mk.injEq] at heq
    obtain ⟨rfl, rfl⟩ := heq
    rw [getElem?_split, Option.some.injEq] at hpin
    subst hpin
    obtain ⟨new, arguments', -, hnew, hargs, heq⟩ := exists_supplyGoals_eq
      (d := { d with rows := before' ++ weeds ++ ⟨base, { line with arguments }⟩ :: after' }) rfl
      base line.stamp goals
    rw [heq] at hrange ⊢
    refine hpinned.exists_yields_supply hlaid hnew hargs hreduce heditable' hrule
      hcopied.rule_ne_assumption ?_ ?_
    . unfold makeRoom
      split <;> rfl
    . intro r hr
      exact hrange r (by simp only [List.append_assoc, List.mem_append] at hr ⊢; grind)

end Expand

end ProofDesk.Derivation
