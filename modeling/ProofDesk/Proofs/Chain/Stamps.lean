import ProofDesk.Proofs.Chain.Cases
import ProofDesk.Proofs.Ledger

/-!
This module contains the ledger of a chain and the moves that an edit makes in it. A formula that is
rewritten in place counts as a new entry, and the old one is dropped.
-/

namespace ProofDesk

def Link.entry (l : Link) : Entry :=
  ⟨l.formula, l.stamp, l.source⟩

namespace Chain

def ledger (c : Chain) : Ledger where
  entries := ⟨c.start, c.startStamp, none⟩ :: c.links.map Link.entry
  stamp := c.stamp

open Ledger

section Moves

variable {c : Chain} {before after before' after' : List Link} {link link' : Link}

theorem mentioned_stamp (h : link ∈ c.links) : Mentioned c.ledger.entries link.stamp :=
  ⟨link.entry, List.mem_cons_of_mem _ (List.mem_map_of_mem h), .inl rfl⟩

theorem mentioned_tip (hlinks : c.links = before ++ after) :
    Mentioned c.ledger.entries (c.tip before).2 := by
  obtain rfl | ⟨init, last, rfl⟩ := List.eq_nil_or_concat' before
  . exact ⟨_, List.mem_cons_self, .inl rfl⟩
  . rw [tip_concat]
    exact mentioned_stamp (by simp [hlinks])

def Reties (c : Chain) (a b : Link) : Prop :=
  Relinked c.ledger.entries a.entry b.entry

theorem reties_self (h : link ∈ c.links) : Reties c link link :=
  relinked_self (List.mem_cons_of_mem _ (List.mem_map_of_mem h))

theorem reties_of_source_eq (h : link ∈ c.links) (hformula : link'.formula = link.formula)
    (hstamp : link'.stamp = link.stamp) (hsource : link'.source = link.source) :
    Reties c link link' := by
  have : link'.entry = link.entry := by rw [Link.entry, Link.entry, hformula, hstamp, hsource]
  rw [Reties, this]
  exact reties_self h

theorem reties_unlink (h : link ∈ c.links) (stamp : Stamp) : Reties c link (unlink stamp link) := by
  unfold unlink
  split
  . exact ⟨rfl, rfl, by simp [Link.entry]⟩
  . exact reties_self h

theorem reties_getD (h : link ∈ c.links) {s : Stamp} (hs : Mentioned c.ledger.entries s)
    (hformula : link'.formula = link.formula) (hstamp : link'.stamp = link.stamp)
    (hsource : link'.source = some (link.source.getD s)) : Reties c link link' := by
  refine ⟨hformula, hstamp, ?_⟩
  intro s' hs'
  have heq : link.source.getD s = s' := by simpa [Link.entry, hsource] using hs'
  cases hlink : link.source with
  | none => simpa [hlink, ← heq] using hs
  | some s₀ =>
    have : s₀ = s' := by simpa [hlink] using heq
    exact (reties_self h).source s' (by simp [Link.entry, hlink, this])

theorem forall₂_reties_self {links : List Link} (h : links ⊆ c.links) :
    List.Forall₂ (Reties c) links links :=
  List.forall₂_same.mpr fun _ hl => reties_self (h hl)

theorem forall₂_reties_mapLast {f : Link → Link} (hsub : before ⊆ c.links)
    (h : ∀ l ∈ before, Reties c l (f l)) :
    List.Forall₂ (Reties c) before (mapLast f before) := by
  obtain rfl | ⟨init, last, rfl⟩ := List.eq_nil_or_concat' before
  . exact .nil
  . rw [mapLast_concat]
    refine List.rel_append (forall₂_reties_self fun l hl => hsub (by simp [hl])) ?_
    exact .cons (h last (by simp)) .nil

theorem moves_reties {links : List Link} (h : List.Forall₂ (Reties c) c.links links) :
    Moves c.ledger ({ c with links : Chain }).ledger := by
  refine .single (.relink _ _ _ (.cons (relinked_self List.mem_cons_self) ?_))
  rw [List.forall₂_map_left_iff, List.forall₂_map_right_iff]
  exact h

theorem moves_insert (hlinks : c.links = before ++ after) (new : Link)
    (hstamp : new.stamp = c.stamp)
    (hsource : ∀ s, new.source = some s → Mentioned c.ledger.entries s) :
    Moves c.ledger
      ({ c with links := before ++ new :: after, stamp := c.stamp.next : Chain }).ledger := by
  have hentries : c.ledger.entries
      = (⟨c.start, c.startStamp, none⟩ :: before.map Link.entry) ++ after.map Link.entry := by
    simp [ledger, hlinks]
  have hmove := Move.add (⟨c.start, c.startStamp, none⟩ :: before.map Link.entry)
    (after.map Link.entry) new.entry c.stamp hstamp fun s hs => .inr (hentries ▸ hsource s hs)
  rw [← hentries] at hmove
  exact .single (by simpa [ledger] using hmove)

theorem moves_drop {links : List Link} (hsub : links.Sublist c.links) :
    Moves c.ledger ({ c with links : Chain }).ledger :=
  .single (.drop _ _ _ (.cons_cons _ (hsub.map _)))

theorem moves_rewrite (hlinks : c.links = before ++ link :: after) (new : Link)
    (hstamp : new.stamp = c.stamp)
    (hsource : ∀ s, new.source = some s → Mentioned c.ledger.entries s) :
    Moves c.ledger
      ({ c with links := before ++ new :: after, stamp := c.stamp.next : Chain }).ledger := by
  refine (moves_insert hlinks new hstamp hsource).trans (moves_drop ?_)
  exact ((List.sublist_cons_self ..).cons_cons _).append_left _

end Moves

section Edit

variable {c next : Chain} {before after : List Link} {old link : Link}
  (hlinks : c.links = before ++ old :: after)
include hlinks

theorem forall₂_reties {link' : Link} {f : Link → Link} (hf : ∀ l ∈ before, Reties c l (f l))
    (hlink : Reties c old link') :
    List.Forall₂ (Reties c) c.links (mapLast f before ++ link' :: after) := by
  rw [hlinks]
  refine List.rel_append (forall₂_reties_mapLast (by simp [hlinks]) hf) (.cons hlink ?_)
  exact forall₂_reties_self fun l hl => by simp [hlinks, hl]

theorem moves_replace {link' : Link} (hlink : Reties c old link') :
    Moves c.ledger ({ c with links := before ++ link' :: after : Chain }).ledger := by
  have hsub : ∀ l ∈ before, l ∈ c.links := fun l hl => by simp [hlinks, hl]
  have := moves_reties (forall₂_reties hlinks (f := id) (fun l hl => reties_self (hsub l hl)) hlink)
  rwa [show mapLast id before = before by simp [mapLast]] at this

theorem moves_of_updated (hformula : link.formula = old.formula) (hstamp : link.stamp = old.stamp)
    (hsource : link.source = old.source) (h : Updated c before after old link next) :
    Moves c.ledger next.ledger := by
  have hold : old ∈ c.links := by simp [hlinks]
  have htie := reties_of_source_eq hold hformula hstamp hsource
  cases h with
  | stored hresult => exact moves_replace hlinks htie
  | rewritten result hresult hdirection hsource' hfree =>
    exact moves_rewrite hlinks { link with formula := result, stamp := c.stamp } rfl htie.source
  | explained hresult hdirection htied =>
    exact moves_replace hlinks
      (reties_getD hold (mentioned_tip hlinks) hformula hstamp (by rw [hsource]))
  | inserted result hresult hdirection hformula' htied =>
    have hadd := moves_insert hlinks
      { link with formula := result, stamp := c.stamp, source := some (c.tip before).2 } rfl
      fun s hs => Option.some.inj hs ▸ mentioned_tip hlinks
    refine hadd.trans (moves_reties (List.rel_append (forall₂_reties_self ?_) ?_))
    . exact fun l hl => by simp [hl]
    . refine .cons (reties_self (by simp)) (.cons (reties_unlink (by simp) _) ?_)
      exact forall₂_reties_self fun l hl => by simp [hl]
  | rewrittenAbove init above hbefore result hresult hdirection hsource' hfree =>
    subst hbefore
    have habove : above ∈ c.links := by simp [hlinks]
    rw [List.append_assoc, List.singleton_append] at hlinks
    have hnew := moves_rewrite hlinks { above with formula := result, stamp := c.stamp } rfl
      (reties_self habove).source
    refine hnew.trans (moves_reties (List.rel_append (forall₂_reties_self ?_) ?_))
    . exact fun l hl => by simp [hl]
    . refine .cons (reties_self (by simp)) (.cons ?_ (forall₂_reties_self ?_))
      . exact reties_of_source_eq (by simp) hformula hstamp hsource
      . exact fun l hl => by simp [hl]
  | explainedAbove hresult hdirection =>
    refine moves_reties (forall₂_reties hlinks ?_ htie)
    intro l hl
    exact reties_getD (by simp [hlinks, hl]) (hstamp ▸ mentioned_stamp hold) rfl rfl rfl
  | insertedAbove result hresult hdirection hformula' =>
    have hadd := moves_insert hlinks
      { Link.new result c.stamp .backward with source := some link.stamp } rfl fun s hs => by
        rw [← Option.some.inj hs, hstamp]
        exact mentioned_stamp hold
    refine hadd.trans (moves_reties ?_)
    refine List.rel_append (forall₂_reties_mapLast (by simp) ?_) ?_
    . exact fun l hl => reties_unlink (by simp [hl]) _
    . refine .cons (reties_self (by simp)) (.cons ?_ (forall₂_reties_self ?_))
      . exact reties_of_source_eq (by simp) hformula hstamp hsource
      . exact fun l hl => by simp [hl]

theorem moves_of_applied {action : Action} (h : Applied c before after old action next) :
    Moves c.ledger next.ledger := by
  have hold : old ∈ c.links := by simp [hlinks]
  cases h with
  | toggled => exact moves_replace hlinks (reties_of_source_eq hold rfl rfl rfl)
  | turnedBackward hdirection => exact moves_replace hlinks ⟨rfl, rfl, by simp [Link.entry]⟩
  | turnedForward hdirection =>
    refine moves_reties (forall₂_reties hlinks ?_ (reties_of_source_eq hold rfl rfl rfl))
    exact fun l hl => reties_unlink (by simp [hlinks, hl]) _
  | deleted hafter =>
    have hsub : (before ++ after).Sublist c.links := by
      rw [hlinks]
      exact (List.sublist_cons_self ..).append_left _
    refine (moves_drop hsub).trans (moves_reties ?_)
    refine List.rel_append (forall₂_reties_mapLast (by simp) ?_) ?_
    . exact fun l hl => reties_unlink (by simp [hl]) _
    . cases after with
      | nil => exact .nil
      | cons below after =>
        exact .cons (reties_unlink (by simp) _) (forall₂_reties_self fun l hl => by simp [hl])
  | changed change next hnext =>
    exact moves_of_updated hlinks (formula_changed ..) (stamp_changed ..) (source_changed ..) hnext

end Edit

theorem moves_of_apply_eq_ok {c next : Chain} {edit : Edit} (h : c.apply edit = .ok next) :
    Moves c.ledger next.ledger := by
  obtain ⟨before, link, after, hlinks, -, happlied⟩ := exists_applied_of_apply_eq_ok h
  exact moves_of_applied hlinks happlied

theorem moves_of_applyAll {c final : Chain} {edits : List Edit}
    (h : c.applyAll edits = .ok final) : Moves c.ledger final.ledger := by
  refine Run.result_induction (motive := fun next _ => Moves c.ledger next.ledger) ?_ ?_ h
  . intro _ _ _ _ hmoves happly
    exact hmoves.trans (moves_of_apply_eq_ok happly)
  . exact Relation.ReflTransGen.refl

end Chain

end ProofDesk
