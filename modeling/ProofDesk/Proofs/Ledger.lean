import Mathlib.Data.List.Nodup
import Mathlib.Logic.Relation
import ProofDesk.Formula.Basic
import ProofDesk.Proofs.Editing
import ProofDesk.Stamp

/-!
This module contains the stamps of a proof, whichever its kind. A ledger lists the formulas that are
stored, and an edit can do three things to it: drop entries, link them in another way, and add an
entry with a fresh stamp. So a stamp stands for one formula throughout a run.
-/

namespace ProofDesk

structure Entry where
  formula : Formula
  stamp : Stamp
  source : Option Stamp

structure Ledger where
  entries : List Entry
  stamp : Stamp

namespace Ledger

def Mentioned (entries : List Entry) (s : Stamp) : Prop :=
  ∃ e ∈ entries, e.stamp = s ∨ e.source = some s

structure Relinked (entries : List Entry) (a b : Entry) : Prop where
  formula : b.formula = a.formula
  stamp : b.stamp = a.stamp
  source : ∀ s, b.source = some s → Mentioned entries s

inductive Move : Ledger → Ledger → Prop where
  | drop (entries kept : List Entry) (stamp : Stamp) (hsub : kept.Sublist entries) :
      Move ⟨entries, stamp⟩ ⟨kept, stamp⟩
  | relink (entries entries' : List Entry) (stamp : Stamp)
      (hrel : List.Forall₂ (Relinked entries) entries entries') :
      Move ⟨entries, stamp⟩ ⟨entries', stamp⟩
  | add (before after : List Entry) (entry : Entry) (stamp : Stamp) (hstamp : entry.stamp = stamp)
      (hsource : ∀ s, entry.source = some s → s = stamp ∨ Mentioned (before ++ after) s) :
      Move ⟨before ++ after, stamp⟩ ⟨before ++ entry :: after, stamp.next⟩

def Moves : Ledger → Ledger → Prop :=
  Relation.ReflTransGen Move

structure Sound (l : Ledger) : Prop where
  distinct : (l.entries.map Entry.stamp).Nodup
  stamp_lt : ∀ e ∈ l.entries, e.stamp.number < l.stamp.number
  source_lt : ∀ e ∈ l.entries, ∀ s, e.source = some s → s.number < l.stamp.number

def Agrees (l l' : Ledger) : Prop :=
  ∀ e ∈ l.entries, ∀ e' ∈ l'.entries, e.stamp = e'.stamp → e.formula = e'.formula

theorem sound_of_first {entries : List Entry} {n : Nat}
    (hstamps : entries.map Entry.stamp = Stamp.first n)
    (hsource : ∀ e ∈ entries, e.source = none) : Sound ⟨entries, ⟨n⟩⟩ := by
  refine ⟨?_, ?_, ?_⟩
  . rw [hstamps, Stamp.first]
    exact List.nodup_range.map fun _ _ h => congrArg Stamp.number h
  . intro e he
    have := List.mem_map_of_mem (f := Entry.stamp) he
    rw [hstamps, Stamp.first, List.mem_map] at this
    obtain ⟨i, hi, heq⟩ := this
    rw [← heq]
    exact List.mem_range.mp hi
  . intro e he s hs
    simp [hsource e he] at hs

theorem relinked_self {entries : List Entry} {e : Entry} (he : e ∈ entries) :
    Relinked entries e e :=
  ⟨rfl, rfl, fun _ hs => ⟨e, he, .inr hs⟩⟩

section Moves

variable {l l' : Ledger}

theorem Sound.lt_of_mentioned (h : l.Sound) {s : Stamp} (hs : Mentioned l.entries s) :
    s.number < l.stamp.number := by
  obtain ⟨e, he, hs⟩ := hs
  cases hs with
  | inl hs => exact hs ▸ h.stamp_lt e he
  | inr hs => exact h.source_lt e he s hs

structure Numbered (l : Ledger) : Prop where
  distinct : (l.entries.map Entry.stamp).Nodup
  stamp_lt : ∀ e ∈ l.entries, e.stamp.number < l.stamp.number

theorem mem_of_mem_added {before after : List Entry} {entry e : Entry}
    (he : e ∈ before ++ entry :: after) : e = entry ∨ e ∈ before ++ after :=
  List.mem_cons.mp (List.perm_middle.mem_iff.mp he)

theorem Numbered.of_move (h : l.Numbered) (hmove : Move l l') : l'.Numbered := by
  cases hmove with
  | drop entries kept stamp hsub =>
    refine ⟨h.distinct.sublist (hsub.map _), ?_⟩
    exact fun e he => h.stamp_lt e (hsub.subset he)
  | relink entries entries' stamp hrel =>
    have hstamps : entries'.map Entry.stamp = entries.map Entry.stamp := by
      rw [← List.forall₂_eq_eq_eq, List.forall₂_map_left_iff, List.forall₂_map_right_iff]
      exact hrel.flip.imp fun _ _ h => h.stamp
    refine ⟨?_, ?_⟩
    . rw [hstamps]
      exact h.distinct
    . intro e he
      obtain ⟨a, ha, hae⟩ := exists_left_of_forall₂ hrel he
      rw [hae.stamp]
      exact h.stamp_lt a ha
  | add before after entry stamp hstamp hsource =>
    refine ⟨?_, ?_⟩
    . rw [List.map_append, List.map_cons, List.nodup_middle, List.nodup_cons, ← List.map_append]
      refine ⟨?_, h.distinct⟩
      intro hentry
      obtain ⟨e, he, heq⟩ := List.mem_map.mp hentry
      have := h.stamp_lt e he
      rw [heq, hstamp] at this
      exact Nat.lt_irrefl _ this
    . intro e he
      rcases mem_of_mem_added he with rfl | he
      . rw [hstamp]
        exact Nat.lt_succ_self _
      . exact Nat.lt_succ_of_lt (h.stamp_lt e he)

theorem Numbered.of_moves (h : l.Numbered) (hmoves : Moves l l') : l'.Numbered := by
  induction hmoves with
  | refl => exact h
  | tail _ hmove ih => exact ih.of_move hmove

theorem Sound.of_move (h : l.Sound) (hmove : Move l l') : l'.Sound := by
  obtain ⟨hdistinct, hlt⟩ := Numbered.of_move ⟨h.distinct, h.stamp_lt⟩ hmove
  refine ⟨hdistinct, hlt, ?_⟩
  cases hmove with
  | drop entries kept stamp hsub => exact fun e he => h.source_lt e (hsub.subset he)
  | relink entries entries' stamp hrel =>
    intro e he s hs
    obtain ⟨a, ha, hae⟩ := exists_left_of_forall₂ hrel he
    exact h.lt_of_mentioned (hae.source s hs)
  | add before after entry stamp hstamp hsource =>
    intro e he s hs
    rcases mem_of_mem_added he with rfl | he
    . cases hsource s hs with
      | inl hs =>
        rw [hs]
        exact Nat.lt_succ_self _
      | inr hs => exact Nat.lt_succ_of_lt (h.lt_of_mentioned hs)
    . exact Nat.lt_succ_of_lt (h.source_lt e he s hs)

theorem Sound.of_moves (h : l.Sound) (hmoves : Moves l l') : l'.Sound := by
  induction hmoves with
  | refl => exact h
  | tail _ hmove ih => exact ih.of_move hmove

structure Continues (l l' : Ledger) : Prop where
  stamp_le : l.stamp.number ≤ l'.stamp.number
  inherited : ∀ e' ∈ l'.entries, e'.stamp.number < l.stamp.number →
    ∃ e ∈ l.entries, e.stamp = e'.stamp ∧ e.formula = e'.formula

theorem Continues.refl (l : Ledger) : Continues l l :=
  ⟨Nat.le_refl _, fun e he _ => ⟨e, he, rfl, rfl⟩⟩

theorem Continues.trans {l'' : Ledger} (h : Continues l l') (h' : Continues l' l'') :
    Continues l l'' := by
  refine ⟨Nat.le_trans h.stamp_le h'.stamp_le, ?_⟩
  intro e'' he'' hlt
  obtain ⟨e', he', hstamp', hformula'⟩ :=
    h'.inherited e'' he'' (Nat.lt_of_lt_of_le hlt h.stamp_le)
  obtain ⟨e, he, hstamp, hformula⟩ := h.inherited e' he' (hstamp' ▸ hlt)
  exact ⟨e, he, hstamp.trans hstamp', hformula.trans hformula'⟩

theorem continues_of_move (hmove : Move l l') : Continues l l' := by
  cases hmove with
  | drop entries kept stamp hsub =>
    exact ⟨Nat.le_refl _, fun e he _ => ⟨e, hsub.subset he, rfl, rfl⟩⟩
  | relink entries entries' stamp hrel =>
    refine ⟨Nat.le_refl _, ?_⟩
    intro e he _
    obtain ⟨a, ha, hae⟩ := exists_left_of_forall₂ hrel he
    exact ⟨a, ha, hae.stamp.symm, hae.formula.symm⟩
  | add before after entry stamp hstamp hsource =>
    refine ⟨Nat.le_succ _, ?_⟩
    intro e he hlt
    rcases List.mem_cons.mp (List.perm_middle.mem_iff.mp he) with rfl | he
    . simp [hstamp] at hlt
    . exact ⟨e, he, rfl, rfl⟩

theorem continues_of_moves (hmoves : Moves l l') : Continues l l' := by
  induction hmoves with
  | refl => exact .refl l
  | tail _ hmove ih => exact ih.trans (continues_of_move hmove)

theorem Sound.agrees (h : l.Sound) (hmoves : Moves l l') : l.Agrees l' := by
  intro e he e' he' hstamp
  obtain ⟨a, ha, hastamp, haformula⟩ :=
    (continues_of_moves hmoves).inherited e' he' (hstamp ▸ h.stamp_lt e he)
  have : e = a := List.inj_on_of_nodup_map h.distinct he ha (hstamp.trans hastamp.symm)
  rw [this, haformula]

end Moves

end Ledger

end ProofDesk
