import ProofDesk.Proofs.Chain.Cases
import ProofDesk.Proofs.Initial

/-!
This module contains what the sources of the links of a chain say. A link that has a source stands
next to it: either the link reads forward and comes from the formula directly above, or it was
supplied by the link directly below, which reads backward. No edit leaves a source behind that is
gone or has moved away.
-/

namespace ProofDesk

namespace Link

def pull? (l : Link) : Option Stamp :=
  match l.direction with
  | .forward => none
  | .backward => some l.stamp

def IsTied (above : Stamp) (below : Option Stamp) (l : Link) : Prop :=
  ∀ s, l.source = some s → (l.direction = .forward ∧ s = above) ∨ below = some s

section IsTied

variable {l l' : Link} {above above' : Stamp} {below : Option Stamp}

theorem IsTied.of_eq (h : l.IsTied above below) (hdirection : l'.direction = l.direction)
    (hsource : l'.source = l.source) : l'.IsTied above below := by
  unfold IsTied
  rw [hdirection, hsource]
  exact h

theorem IsTied.of_backward (h : l.IsTied above below) (hdirection : l.direction = .backward)
    (hsource : l'.source = l.source) : l'.IsTied above' below := by
  intro s hs
  rw [hsource] at hs
  cases h s hs with
  | inl hforward => simp [hdirection] at hforward
  | inr hbelow => exact .inr hbelow

theorem isTied_of_source {s : Stamp} (hsource : l.source = some s)
    (hs : (l.direction = .forward ∧ s = above) ∨ below = some s) : l.IsTied above below := by
  intro s' hs'
  rw [hsource, Option.some.injEq] at hs'
  rw [← hs']
  exact hs

theorem IsTied.getD {s : Stamp} (h : l.IsTied above below)
    (hs : (l.direction = .forward ∧ s = above) ∨ below = some s)
    (hdirection : l'.direction = l.direction) (hsource : l'.source = some (l.source.getD s)) :
    l'.IsTied above below := by
  cases hl : l.source with
  | none =>
    rw [hl, Option.getD_none] at hsource
    apply isTied_of_source hsource
    rw [hdirection]
    exact hs
  | some s' =>
    apply h.of_eq hdirection
    rw [hsource, hl, Option.getD_some]

theorem IsTied.unlink_above (h : l.IsTied above below) :
    (Chain.unlink above l).IsTied above' below := by
  unfold Chain.unlink
  split
  . simp [IsTied]
  . next hsource =>
    intro s hs
    cases h s hs with
    | inl hforward =>
      rw [hs, hforward.2] at hsource
      contradiction
    | inr hbelow => exact .inr hbelow

theorem IsTied.unlink_below {below' : Option Stamp} {s : Stamp} (h : l.IsTied above below)
    (hbelow : ∀ s', below = some s' → s' = s) : (Chain.unlink s l).IsTied above below' := by
  unfold Chain.unlink
  split
  . simp [IsTied]
  . next hsource =>
    intro s' hs'
    cases h s' hs' with
    | inl hforward => exact .inl hforward
    | inr heq =>
      rw [hs', hbelow s' heq] at hsource
      contradiction

theorem pull?_of_forward (h : l.direction = .forward) : l.pull? = none := by
  unfold pull?
  rw [h]

theorem pull?_of_backward (h : l.direction = .backward) : l.pull? = some l.stamp := by
  unfold pull?
  rw [h]

theorem eq_stamp_of_pull?_eq_some {s : Stamp} (h : l.pull? = some s) :
    l.direction = .backward ∧ s = l.stamp := by
  cases hdirection : l.direction with
  | forward => simp [pull?_of_forward hdirection] at h
  | backward =>
    rw [pull?_of_backward hdirection, Option.some.injEq] at h
    exact ⟨rfl, h.symm⟩

end IsTied

end Link

namespace Chain

def tipStamp (above : Stamp) (links : List Link) : Stamp :=
  (links.getLast?.map Link.stamp).getD above

def front (below : Option Stamp) : List Link → Option Stamp
  | [] => below
  | link :: _ => link.pull?

def Tied (above : Stamp) (below : Option Stamp) : List Link → Prop
  | [] => True
  | link :: links => link.IsTied above (front below links) ∧ Tied link.stamp below links

@[simp]
theorem tipStamp_nil (above : Stamp) : tipStamp above [] = above := by
  rfl

theorem tipStamp_cons (above : Stamp) (link : Link) (links : List Link) :
    tipStamp above (link :: links) = tipStamp link.stamp links := by
  unfold tipStamp
  rw [List.getLast?_cons]
  cases links.getLast? <;> rfl

theorem tip_snd (c : Chain) (before : List Link) :
    (c.tip before).2 = tipStamp c.startStamp before := by
  unfold tip tipStamp
  cases before.getLast? <;> rfl

theorem front_append (below : Option Stamp) (links links' : List Link) :
    front below (links ++ links') = front (front below links') links := by
  cases links <;> rfl

theorem exists_of_front_eq_some {links : List Link} {s : Stamp} (h : front none links = some s) :
    ∃ below rest, links = below :: rest ∧ below.direction = .backward ∧ s = below.stamp := by
  cases links with
  | nil => simp [front] at h
  | cons below rest => exact ⟨below, rest, rfl, Link.eq_stamp_of_pull?_eq_some h⟩

section Segments

variable {above above' : Stamp} {below below' : Option Stamp} {links links' : List Link}
variable {link : Link}

theorem tied_append :
    Tied above below (links ++ links')
      ↔
    Tied above (front below links') links ∧ Tied (tipStamp above links) below links' := by
  induction links generalizing above with
  | nil => simp [Tied]
  | cons link links ih =>
    rw [List.cons_append]
    simp only [Tied]
    rw [ih, front_append, tipStamp_cons, and_assoc]

theorem tied_concat :
    Tied above below (links ++ [link])
      ↔
    Tied above link.pull? links ∧ link.IsTied (tipStamp above links) below := by
  rw [tied_append]
  simp [Tied, front]

theorem tied_split :
    Tied above below (links ++ link :: links')
      ↔
    Tied above link.pull? links ∧ link.IsTied (tipStamp above links) (front below links')
      ∧ Tied link.stamp below links' := by
  rw [tied_append]
  simp only [Tied, front]

theorem tied_of_source_eq_none (h : ∀ link ∈ links, link.source = none) :
    Tied above below links := by
  induction links generalizing above with
  | nil => trivial
  | cons link links ih =>
    rw [List.forall_mem_cons] at h
    refine ⟨?_, ih h.2⟩
    intro s hs
    simp [h.1] at hs

theorem Tied.change_below (h : Tied above below links)
    (hlast : ∀ l s, links.getLast? = some l → below = some s → l.source ≠ some s) :
    Tied above below' links := by
  obtain rfl | ⟨init, last, rfl⟩ := List.eq_nil_or_concat' links
  . trivial
  . rw [tied_concat] at h ⊢
    refine ⟨h.1, ?_⟩
    intro s hs
    cases h.2 s hs with
    | inl hforward => exact .inl hforward
    | inr hbelow => exact absurd hs (hlast last s (by simp) hbelow)

theorem Tied.change_above (h : Tied above below links)
    (hfirst : ∀ l, links.head? = some l → l.source ≠ some above) : Tied above' below links := by
  cases links with
  | nil => trivial
  | cons first links =>
    refine ⟨?_, h.2⟩
    intro s hs
    cases h.1 s hs with
    | inl hforward =>
      rw [hforward.2] at hs
      exact absurd hs (hfirst first rfl)
    | inr hbelow => exact .inr hbelow

theorem Tied.mapLast {f : Link → Link} (h : Tied above below links)
    (hpull : ∀ l, (f l).pull? = l.pull?)
    (hf : ∀ l above, l.IsTied above below → (f l).IsTied above below') :
    Tied above below' (mapLast f links) := by
  obtain rfl | ⟨init, last, rfl⟩ := List.eq_nil_or_concat' links
  . trivial
  . rw [mapLast_concat]
    rw [tied_concat] at h ⊢
    rw [hpull]
    exact ⟨h.1, hf last _ h.2⟩

end Segments

@[simp]
theorem stamp_unlink (s : Stamp) (link : Link) : (unlink s link).stamp = link.stamp := by
  unfold unlink
  split <;> rfl

@[simp]
theorem direction_unlink (s : Stamp) (link : Link) :
    (unlink s link).direction = link.direction := by
  unfold unlink
  split <;> rfl

@[simp]
theorem pull?_unlink (s : Stamp) (link : Link) : (unlink s link).pull? = link.pull? := by
  simp [Link.pull?]

theorem Tied.mapLast_unlink {above : Stamp} {below : Option Stamp} {links : List Link} {link : Link}
    (h : Tied above link.pull? links) :
    Tied above below (Chain.mapLast (unlink link.stamp) links) := by
  apply h.mapLast (pull?_unlink _)
  intro l above htied
  exact htied.unlink_below fun s hs => (Link.eq_stamp_of_pull?_eq_some hs).2

theorem Tied.modifyHead_unlink {above above' : Stamp} {below : Option Stamp} {links : List Link}
    (h : Tied above below links) : Tied above' below (links.modifyHead (unlink above)) := by
  cases links with
  | nil => trivial
  | cons first links =>
    rw [List.modifyHead_cons]
    refine ⟨h.1.unlink_above, ?_⟩
    rw [stamp_unlink]
    exact h.2

section Edit

variable {c next : Chain} {before after : List Link} {old link : Link}

theorem tied_of_updated (htied : Tied c.startStamp none (before ++ old :: after))
    (hdirection : link.direction = old.direction) (hstamp : link.stamp = old.stamp)
    (hsource : link.source = old.source) (h : Updated c before after old link next) :
    Tied next.startStamp none next.links := by
  rw [tied_split] at htied
  obtain ⟨hbefore, hold, hafter⟩ := htied
  have hpull : link.pull? = old.pull? := by
    unfold Link.pull?
    rw [hdirection, hstamp]
  have hlink := hold.of_eq hdirection hsource
  rw [← hpull] at hbefore
  rw [← hstamp] at hafter
  cases h with
  | stored hresult =>
    rw [tied_split]
    exact ⟨hbefore, hlink, hafter⟩
  | rewritten result hresult hforward hsource' hfree =>
    rw [tied_split]
    have hnone := Link.pull?_of_forward (hdirection.trans hforward)
    -- The link gets a new stamp. Nothing above pointed to the old one because the link reads
    -- forward, and nothing below does because the link was free to be rewritten.
    refine ⟨?_, hlink.of_eq rfl rfl, ?_⟩
    . apply hbefore.change_below
      simp [hnone]
    . apply hafter.change_above
      exact hfree
  | explained hresult hforward htied =>
    rw [tied_split]
    refine ⟨hbefore, ?_, hafter⟩
    exact hlink.getD (.inl ⟨hdirection.trans hforward, c.tip_snd before⟩) rfl rfl
  | inserted result hresult hforward hformula htied =>
    rw [tied_split]
    have hnone := Link.pull?_of_forward (hdirection.trans hforward)
    refine ⟨?_, ?_, ?_⟩
    . apply hbefore.change_below
      simp [hnone]
    . exact Link.isTied_of_source rfl (.inl ⟨hdirection.trans hforward, c.tip_snd before⟩)
    -- `old` is pushed down by the new link and loses the formula above it as a source.
    . rw [tip_snd]
      refine ⟨hold.unlink_above, ?_⟩
      rw [stamp_unlink, ← hstamp]
      exact hafter
  | rewrittenAbove init above hinit result hresult hbackward hsource' hfree =>
    subst hinit
    rw [tied_concat] at hbefore
    rw [tied_split]
    have hlinkBackward := hdirection.trans hbackward
    refine ⟨?_, ?_, ?_, hafter⟩
    . apply hbefore.1.change_below
      intro l s hl hs
      rw [(Link.eq_stamp_of_pull?_eq_some hs).2]
      exact hfree l hl
    . exact hbefore.2.of_eq rfl rfl
    . exact hlink.of_backward hlinkBackward rfl
  | explainedAbove hresult hbackward =>
    rw [tied_split]
    have hlinkBackward := hdirection.trans hbackward
    refine ⟨?_, ?_, hafter⟩
    . apply hbefore.mapLast
      . intro l
        rfl
      . intro l above htied
        exact htied.getD (.inr (Link.pull?_of_backward hlinkBackward)) rfl rfl
    . exact hlink.of_backward hlinkBackward rfl
  | insertedAbove result hresult hbackward hformula =>
    rw [tied_split]
    have hlinkBackward := hdirection.trans hbackward
    refine ⟨hbefore.mapLast_unlink, ?_, ?_, hafter⟩
    . exact Link.isTied_of_source rfl (.inr (Link.pull?_of_backward hlinkBackward))
    . exact hlink.of_backward hlinkBackward rfl

theorem tied_of_applied {action : Action} (htied : Tied c.startStamp none (before ++ link :: after))
    (h : Applied c before after link action next) : Tied next.startStamp none next.links := by
  cases h with
  | toggled =>
    rw [tied_split] at htied ⊢
    exact ⟨htied.1, htied.2.1.of_eq rfl rfl, htied.2.2⟩
  | turnedBackward hforward =>
    rw [tied_split] at htied ⊢
    refine ⟨?_, ?_, htied.2.2⟩
    . apply htied.1.change_below
      simp [Link.pull?_of_forward hforward]
    . simp [Link.IsTied]
  | turnedForward hbackward =>
    rw [tied_split] at htied ⊢
    refine ⟨htied.1.mapLast_unlink, ?_, htied.2.2⟩
    exact htied.2.1.of_backward hbackward rfl
  | deleted hafter =>
    rw [tied_split] at htied
    rw [tied_append]
    exact ⟨htied.1.mapLast_unlink, htied.2.2.modifyHead_unlink⟩
  | changed change next hnext =>
    exact tied_of_updated htied (direction_changed ..) (stamp_changed ..) (source_changed ..) hnext

end Edit

theorem tied_of_apply_eq_ok {c next : Chain} {edit : Edit} (htied : Tied c.startStamp none c.links)
    (h : c.apply edit = .ok next) : Tied next.startStamp none next.links := by
  obtain ⟨before, link, after, hlinks, -, happlied⟩ := exists_applied_of_apply_eq_ok h
  rw [hlinks] at htied
  exact tied_of_applied htied happlied

theorem tied_of_applyAll {c final : Chain} {edits : List Edit}
    (htied : Tied c.startStamp none c.links) (h : c.applyAll edits = .ok final) :
    Tied final.startStamp none final.links := by
  refine Run.result_induction (motive := fun next _ => Tied next.startStamp none next.links) ?_
    htied h
  intro _ _ _ _ htied happly
  exact tied_of_apply_eq_ok htied happly

/--
A link that has a source stands next to it: the link reads forward and its source is the formula
directly above, or the link directly below reads backward and is the source.
-/
def SourcesAdjacent (c : Chain) : Prop :=
  ∀ i link, c.links[i]? = some link →
    link.source = none
      ∨ (∃ formula stamp, c.above? i = some (formula, stamp) ∧ link.direction = .forward
          ∧ link.source = some stamp)
      ∨ (∃ below, c.links[i + 1]? = some below ∧ below.direction = .backward
          ∧ link.source = some below.stamp)

theorem Tied.sourcesAdjacent {c : Chain} (h : Tied c.startStamp none c.links) :
    c.SourcesAdjacent := by
  intro i link hlink
  obtain ⟨before, after, hlinks, rfl⟩ := exists_split_of_getElem? hlink
  rw [hlinks, tied_split] at h
  cases hsource : link.source with
  | none => exact .inl rfl
  | some s =>
    right
    cases h.2.1 s hsource with
    | inl hforward =>
      left
      refine ⟨(c.tip before).1, (c.tip before).2, above?_split hlinks, hforward.1, ?_⟩
      rw [hforward.2, tip_snd]
    | inr hbelow =>
      right
      obtain ⟨below, rest, rfl, hdirection, rfl⟩ := exists_of_front_eq_some hbelow
      refine ⟨below, ?_, hdirection, rfl⟩
      have hlen : before.length + 1 = (before ++ [link]).length := by simp
      rw [hlinks, List.append_cons, hlen, getElem?_split]

theorem sourcesAdjacent_of_applyAll {c₀ c : Chain} {edits : List Edit} (hinitial : c₀.Initial)
    (hrun : c₀.applyAll edits = .ok c) : c.SourcesAdjacent := by
  apply Tied.sourcesAdjacent
  apply tied_of_applyAll _ hrun
  exact tied_of_source_eq_none hinitial.source_eq_none

def detourSnapshot : Snapshot where
  start := some "P and T"
  goal := some "P"
  links := [⟨"P and T", 0, true, 0, -1, true⟩, ⟨"T and P", 0, true, 0, -1, true⟩,
    ⟨"P", 0, true, 0, -1, true⟩]

def detourEdits : List Edit :=
  [⟨1, .change (.setLaw (some .commutativity))⟩, ⟨0, .delete⟩,
    ⟨0, .change (.setLaw (some .commutativity))⟩, ⟨1, .toggleDirection⟩,
    ⟨1, .change (.setLeftToRight false)⟩, ⟨1, .change (.setLaw (some .doubleNegation))⟩]

theorem detour_sourcesAdjacent :
    ∃ c₀ c, detourSnapshot.toChain .standard = .ok c₀ ∧ c₀.applyAll detourEdits = .ok c
      ∧ c.links.map (fun link => (link.stamp, link.direction, link.source))
        = [(⟨2⟩, .forward, some ⟨0⟩), (⟨4⟩, .backward, some ⟨3⟩), (⟨3⟩, .backward, none)]
      ∧ c.SourcesAdjacent := by
  have hrun : (detourSnapshot.toChain .standard).toOption.map (fun c₀ =>
      (c₀.applyAll detourEdits).toOption.map fun c =>
        c.links.map fun link => (link.stamp, link.direction, link.source))
      = some (some [(⟨2⟩, .forward, some ⟨0⟩), (⟨4⟩, .backward, some ⟨3⟩),
        (⟨3⟩, .backward, none)]) := by
    decide +kernel
  obtain ⟨c₀, hc₀, hrun⟩ := exists_of_map_toOption_eq_some hrun
  obtain ⟨c, hc, hlinks⟩ := exists_of_map_toOption_eq_some hrun
  exact ⟨c₀, c, hc₀, hc, hlinks, sourcesAdjacent_of_applyAll (.stored _ _ c₀ hc₀) hc⟩

end Chain

end ProofDesk
