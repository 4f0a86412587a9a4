import ProofDesk.Proofs.Chain.Stamps
import ProofDesk.Proofs.Initial
import ProofDesk.Proofs.Run

/-!
This module contains what stamps are for: throughout a run of either editor they tell the stored
formulas apart, and a stamp stands for the same formula wherever it is found.
-/

namespace ProofDesk

def Line.entry (line : Line) : Entry :=
  ⟨line.formula, line.stamp, line.source⟩

namespace Derivation

open Ledger

def ledger (d : Derivation) : Ledger where
  entries := d.rows.map fun row => row.line.entry
  stamp := d.stamp

def Outline.ledger (o : Outline) : Ledger where
  entries := o.lines.map Line.entry
  stamp := o.stamp

theorem ledger_sketch (d : Derivation) : d.sketch.ledger = d.ledger := by
  simp only [Outline.ledger, sketch, outline, ledger, List.map_map]
  rfl

section Moves

variable {a b : Line} {o o' : Outline}

theorem Variant.formula_eq (h : Variant a b) : b.formula = a.formula := by
  cases h with
  | copied rows row heditable line hline label =>
    obtain ⟨step, arguments, rfl⟩ := hline.exists_eq
    rfl
  | same | shown | unlinked | linked | filled | reset => rfl

theorem Variant.relinked_entry {lines : List Line} (h : Variant a b) (ha : a ∈ lines) :
    Relinked (lines.map Line.entry) a.entry b.entry := by
  obtain ⟨hstamp, hsource⟩ := h.relinked
  have hmem : a.entry ∈ lines.map Line.entry := List.mem_map_of_mem ha
  refine ⟨h.formula_eq, hstamp, ?_⟩
  intro s (hs : b.source = some s)
  rcases hsource with heq | heq | heq
  . exact ⟨a.entry, hmem, .inr (heq.symm.trans hs)⟩
  . exact absurd (hs.symm.trans heq) (by simp)
  . have : b.stamp = s := Option.some.inj (heq.symm.trans hs)
    exact ⟨a.entry, hmem, .inl (hstamp.symm.trans this)⟩

theorem Outline.Move.ledger (h : Outline.Move o o') : Ledger.Move o.ledger o'.ledger := by
  cases h with
  | drop lines kept stamp hsub => exact .drop _ _ _ (hsub.map _)
  | revise lines lines' stamp hrel =>
    obtain ⟨hlen, hvariant⟩ := List.forall₂_iff_zip.mp hrel
    refine .relink _ _ _ ?_
    rw [List.forall₂_map_left_iff, List.forall₂_map_right_iff, List.forall₂_iff_zip]
    exact ⟨hlen, fun hmem => (hvariant hmem).relinked_entry (List.of_mem_zip hmem).1⟩
  | insert before after stamp line hfresh =>
    simp only [Outline.ledger, List.map_append, List.map_cons]
    rcases hfresh.link_eq with hlink | ⟨target, htarget, hlink⟩
    . obtain ⟨hstamp, hsource⟩ := Prod.mk.inj hlink
      refine .add _ _ _ _ hstamp fun s hs => .inl ?_
      exact Option.some.inj (hs.symm.trans hsource)
    . obtain ⟨hstamp, hsource⟩ := Prod.mk.inj hlink
      refine .add _ _ _ _ hstamp fun s hs => .inr ⟨target.entry, ?_, .inl ?_⟩
      . exact List.mem_append_right _ (List.mem_map_of_mem htarget)
      . exact Option.some.inj (hsource.symm.trans hs)

theorem Outline.Moves.ledger (h : Outline.Moves o o') : Ledger.Moves o.ledger o'.ledger := by
  induction h with
  | refl => exact .refl
  | tail _ hmove ih => exact ih.tail hmove.ledger

end Moves

theorem ledger_moves_of_applyAll {d final : Derivation} {edits : List Edit}
    (h : d.applyAll edits = .ok final) : Ledger.Moves d.ledger final.ledger := by
  refine Run.result_induction (motive := fun next _ => Ledger.Moves d.ledger next.ledger) ?_ ?_ h
  . intro d edit edits next hmoves happly
    have hledger := (moves_of_apply_eq_ok happly).ledger
    rw [ledger_sketch, ledger_sketch] at hledger
    exact hmoves.trans hledger
  . exact Relation.ReflTransGen.refl

theorem Initial.ledger_sound {d : Derivation} (h : Initial d) : d.ledger.Sound := by
  obtain ⟨hstamps, hnext⟩ := h.stamps_eq_first
  rw [ledger, hnext]
  apply sound_of_first
  . rw [List.map_map]
    exact hstamps
  . simp only [List.forall_mem_map]
    exact h.source_eq_none

end Derivation

theorem Chain.Initial.ledger_sound {c : Chain} (h : Initial c) : c.ledger.Sound := by
  obtain ⟨hstamps, hnext⟩ := h.stamps_eq_first
  rw [ledger, hnext]
  apply Ledger.sound_of_first
  . rw [List.map_cons, List.map_map]
    exact hstamps
  . rw [List.forall_mem_cons, List.forall_mem_map]
    exact ⟨rfl, h.source_eq_none⟩

/--
Throughout a run of either editor no two formulas share a stamp, all stamps have been handed out,
and formulas that share a stamp at different times are the same.
-/
theorem ledger_sound_and_agrees_of_applyAll :
    (∀ (d₀ d d' : Derivation) (edits more : List Derivation.Edit),
      d₀.Initial → d₀.applyAll edits = .ok d → d.applyAll more = .ok d' →
        d.ledger.Sound ∧ d.ledger.Agrees d'.ledger)
      ∧
    (∀ (c₀ c c' : Chain) (edits more : List Chain.Edit),
      c₀.Initial → c₀.applyAll edits = .ok c → c.applyAll more = .ok c' →
        c.ledger.Sound ∧ c.ledger.Agrees c'.ledger) := by
  constructor
  . intro d₀ d d' edits more h happly hmore
    have hsound := h.ledger_sound.of_moves (Derivation.ledger_moves_of_applyAll happly)
    exact ⟨hsound, hsound.agrees (Derivation.ledger_moves_of_applyAll hmore)⟩
  . intro c₀ c c' edits more h happly hmore
    have hsound := h.ledger_sound.of_moves (Chain.moves_of_applyAll happly)
    exact ⟨hsound, hsound.agrees (Chain.moves_of_applyAll hmore)⟩

def rewordedDerivation : Except Fault Derivation :=
  (Derivation.begin (.conj (.var "P") (.const true)) (.var "P") .forward).applyAll
    [⟨1, .change (.setRule (some .equivalence))⟩,
      ⟨1, .change (.setArgument 0 (some ⟨[1]⟩))⟩,
      ⟨1, .change (.setLaw (some .identity))⟩]

def rewordedSnapshot : Chain.Snapshot where
  start := some "P and T"
  goal := some "P"
  links := [⟨"P", 1, true, 0, -1, true⟩]

theorem reworded_ledger_sound_and_agrees :
    (∃ d d', rewordedDerivation = .ok d
        ∧ d.applyAll [⟨1, .change (.setLaw (some .commutativity))⟩] = .ok d'
        ∧ d.ledger.entries.map Entry.stamp = [⟨0⟩, ⟨1⟩]
        ∧ d'.ledger.entries.map Entry.stamp = [⟨0⟩, ⟨2⟩]
        ∧ d.ledger.Sound ∧ d.ledger.Agrees d'.ledger)
      ∧
    (∃ c₀ c c', rewordedSnapshot.toChain .standard = .ok c₀
        ∧ c₀.applyAll [⟨0, .change (.setLaw (some .commutativity))⟩] = .ok c
        ∧ c.applyAll [⟨0, .change (.setLaw (some .identity))⟩] = .ok c'
        ∧ c.ledger.entries.map Entry.stamp = [⟨0⟩, ⟨2⟩, ⟨1⟩]
        ∧ c'.ledger.entries.map Entry.stamp = [⟨0⟩, ⟨3⟩, ⟨1⟩]
        ∧ c.ledger.Sound ∧ c.ledger.Agrees c'.ledger) := by
  constructor
  . have hrun : rewordedDerivation.toOption.map (fun d => (d.ledger.entries.map Entry.stamp,
        (d.applyAll [⟨1, .change (.setLaw (some .commutativity))⟩]).toOption.map
          fun d' => d'.ledger.entries.map Entry.stamp))
        = some ([⟨0⟩, ⟨1⟩], some [⟨0⟩, ⟨2⟩]) := by
      decide +kernel
    obtain ⟨d, hd, hrun⟩ := exists_of_map_toOption_eq_some hrun
    obtain ⟨hstamps, hrun⟩ := Prod.mk.inj hrun
    obtain ⟨d', hd', hstamps'⟩ := exists_of_map_toOption_eq_some hrun
    refine ⟨d, d', hd, hd', hstamps, hstamps', ?_⟩
    exact ledger_sound_and_agrees_of_applyAll.1 _ d d' _ _ (.fresh ..) hd hd'
  . have hrun : (rewordedSnapshot.toChain .standard).toOption.map (fun c₀ =>
        (c₀.applyAll [⟨0, .change (.setLaw (some .commutativity))⟩]).toOption.map fun c =>
          (c.ledger.entries.map Entry.stamp,
            (c.applyAll [⟨0, .change (.setLaw (some .identity))⟩]).toOption.map
              fun c' => c'.ledger.entries.map Entry.stamp))
        = some (some ([⟨0⟩, ⟨2⟩, ⟨1⟩], some [⟨0⟩, ⟨3⟩, ⟨1⟩])) := by
      decide +kernel
    obtain ⟨c₀, hc₀, hrun⟩ := exists_of_map_toOption_eq_some hrun
    obtain ⟨c, hc, hrun⟩ := exists_of_map_toOption_eq_some hrun
    obtain ⟨hstamps, hrun⟩ := Prod.mk.inj hrun
    obtain ⟨c', hc', hstamps'⟩ := exists_of_map_toOption_eq_some hrun
    refine ⟨c₀, c, c', hc₀, hc, hc', hstamps, hstamps', ?_⟩
    exact ledger_sound_and_agrees_of_applyAll.2 c₀ c c' _ _ (.stored _ _ c₀ hc₀) hc hc'

end ProofDesk
