import Mathlib.Data.List.Forall2
import ProofDesk.Chain.Edit
import ProofDesk.Proofs.Editing
import ProofDesk.Snapshot.Chain
import ProofDesk.Snapshot.Derivation

/-!
This module contains the proofs that a run of edits can start from: fresh ones, and those that have
been read back from a snapshot. Their stamps are numbered in order, and no formula in them has a
source.
-/

namespace ProofDesk

theorem map_eq_of_forall₂_zipIdx {α β : Type} {as : List α} {bs : List β} {stamp : β → Stamp}
    {number : Nat → Nat}
    (h : List.Forall₂ (fun a b => stamp b = ⟨number a.2⟩) as.zipIdx bs) :
    bs.map stamp = (List.range bs.length).map fun i => ⟨number i⟩ := by
  have hlen : as.length = bs.length := by simpa using h.length_eq
  have heq : as.zipIdx.map (fun a => (⟨number a.2⟩ : Stamp)) = bs.map stamp := by
    rw [← List.forall₂_eq_eq_eq, List.forall₂_map_left_iff, List.forall₂_map_right_iff]
    exact h.imp fun _ _ h => h.symm
  have hindices : as.zipIdx.map Prod.snd = List.range bs.length := by
    rw [List.zipIdx_map_snd, hlen, List.range_eq_range']
  rw [← heq, ← hindices, List.map_map]
  rfl

namespace Derivation

inductive Initial : Derivation → Prop where
  | fresh (start goal : Formula) (direction : Direction) : Initial (begin start goal direction)
  | stored (s : Snapshot) (settings : Settings) (d : Derivation)
      (hd : s.toDerivation settings = .ok d) : Initial d

theorem LineRecord.exists_of_toStep_eq_ok {r : LineRecord} {step : Step}
    (h : r.toStep = .ok step) :
    (∃ law lattice, step = { Step.ofRule (some .equivalence) (.ofForward r.forward) with
        reading := some ⟨law, r.leftToRight.getD true, lattice⟩
        chosen := r.chosen.bind Code.toChosen })
      ∨ ∃ rule side, step = { Step.ofRule rule (.ofForward r.forward) with side } := by
  unfold toStep at h
  obtain ⟨rule, -, h⟩ := exists_of_bind_eq_ok h
  split at h
  . obtain ⟨law, -, h⟩ := exists_of_bind_eq_ok h
    obtain ⟨lattice, -, h⟩ := exists_of_bind_eq_ok h
    simp only [pure, Except.pure, Except.ok.injEq] at h
    exact .inl ⟨law, lattice, h.symm⟩
  . obtain ⟨side, -, h⟩ := exists_of_bind_eq_ok h
    simp only [pure, Except.pure, Except.ok.injEq] at h
    exact .inr ⟨_, side, h.symm⟩

theorem LineRecord.exists_of_toLine_eq_ok {r : LineRecord} {own : Label} {labels : List Label}
    {stamp : Stamp} {line : Line} (h : r.toLine own labels stamp = .ok line) :
    ∃ formula step arguments, Stored.formula r.formula = .ok formula ∧ r.toStep = .ok step
      ∧ r.toArguments own labels step.arity r.arguments = .ok arguments
      ∧ line = { Line.new formula stamp step r.fixed r.editable with
          editing := r.editing, arguments } := by
  unfold toLine at h
  obtain ⟨formula, hformula, h⟩ := exists_of_bind_eq_ok h
  obtain ⟨step, hstep, h⟩ := exists_of_bind_eq_ok h
  obtain ⟨arguments, harguments, h⟩ := exists_of_bind_eq_ok h
  simp only [pure, Except.pure, Except.ok.injEq] at h
  exact ⟨formula, step, arguments, hformula, hstep, harguments, h.symm⟩

theorem Snapshot.forall₂_of_toRows_eq_ok {labels : List Label} {records : List LineRecord}
    {rows : List Row} (h : toRows labels records = .ok rows) :
    List.Forall₂
      (fun a row => row.label = a.1.1 ∧ a.1.2.toLine a.1.1 labels ⟨a.2⟩ = .ok row.line)
      (labels.zip records).zipIdx rows := by
  refine (forall₂_of_mapM_eq_ok h).imp ?_
  rintro ⟨⟨label, record⟩, i⟩ row hrow
  cases hline : record.toLine label labels ⟨i⟩ with
  | error e => simp [hline, Except.map] at hrow
  | ok line =>
    simp only [hline, Except.map, Except.ok.injEq] at hrow
    rw [← hrow]
    exact ⟨rfl, rfl⟩

theorem Snapshot.exists_of_toDerivation_eq_ok {s : Snapshot} {settings : Settings} {d : Derivation}
    (h : s.toDerivation settings = .ok d) :
    ∃ start goal, Stored.formula (s.start.getD settings.start) = .ok start
      ∧ Stored.formula (s.goal.getD settings.goal) = .ok goal
      ∧ (d = begin start goal settings.goalDirection
        ∨ ∃ labels rows, s.lines ≠ [] ∧ s.labels ≠ []
          ∧ (s.labels.take s.lines.length).mapM Stored.label = .ok labels
          ∧ disorder? labels = none ∧ toRows labels s.lines = .ok rows
          ∧ d = ⟨start, goal, rows, ⟨rows.length⟩⟩) := by
  unfold toDerivation at h
  obtain ⟨start, hstart, h⟩ := exists_of_bind_eq_ok h
  obtain ⟨goal, hgoal, h⟩ := exists_of_bind_eq_ok h
  refine ⟨start, goal, hstart, hgoal, ?_⟩
  split at h
  . simp only [Except.ok.injEq] at h
    exact .inl h.symm
  . next hempty =>
    simp only [Bool.or_eq_true, List.isEmpty_iff, not_or] at hempty
    obtain ⟨labels, hlabels, h⟩ := exists_of_bind_eq_ok h
    split at h
    . simp at h
    . next horder =>
      obtain ⟨rows, hrows, h⟩ := exists_of_bind_eq_ok h
      simp only [Except.ok.injEq] at h
      exact .inr ⟨labels, rows, hempty.1, hempty.2, hlabels, horder, hrows, h.symm⟩

namespace Initial

variable {d : Derivation} (h : Initial d)
include h

theorem forall_lines {motive : Line → Prop}
    (hbegin : ∀ start goal direction, ∀ row ∈ (begin start goal direction).rows, motive row.line)
    (hstored : ∀ (r : LineRecord) own labels stamp line,
      r.toLine own labels stamp = .ok line → motive line) :
    ∀ row ∈ d.rows, motive row.line := by
  cases h with
  | fresh start goal direction => exact hbegin start goal direction
  | stored s settings d hd =>
    obtain ⟨start, goal, -, -, hd⟩ := Snapshot.exists_of_toDerivation_eq_ok hd
    rcases hd with rfl | ⟨labels, rows, -, -, -, -, hrows, rfl⟩
    . exact hbegin start goal settings.goalDirection
    . intro row hrow
      obtain ⟨a, -, -, hline⟩ :=
        exists_left_of_forall₂ (Snapshot.forall₂_of_toRows_eq_ok hrows) hrow
      exact hstored _ _ _ _ _ hline

theorem source_eq_none : ∀ row ∈ d.rows, row.line.source = none := by
  refine h.forall_lines (motive := fun line => line.source = none) ?_ ?_
  . simp [begin, Line.new]
  . intro r own labels stamp line hline
    obtain ⟨formula, step, arguments, -, -, -, rfl⟩ := LineRecord.exists_of_toLine_eq_ok hline
    rfl

theorem stamps_eq_first :
    (d.rows.map fun row => row.line.stamp) = Stamp.first d.rows.length
      ∧ d.stamp = ⟨d.rows.length⟩ := by
  cases h with
  | fresh start goal direction => exact ⟨rfl, rfl⟩
  | stored s settings d hd =>
    obtain ⟨start, goal, -, -, hd⟩ := Snapshot.exists_of_toDerivation_eq_ok hd
    rcases hd with rfl | ⟨labels, rows, -, -, -, -, hrows, rfl⟩
    . exact ⟨rfl, rfl⟩
    . refine ⟨?_, rfl⟩
      apply map_eq_of_forall₂_zipIdx
      refine (Snapshot.forall₂_of_toRows_eq_ok hrows).imp ?_
      rintro a row ⟨-, hline⟩
      obtain ⟨formula, step, arguments, -, -, -, heq⟩ := LineRecord.exists_of_toLine_eq_ok hline
      rw [heq]
      rfl

end Initial

end Derivation

namespace Chain

inductive Initial : Chain → Prop where
  | fresh (start goal : Formula) : Initial (begin start goal)
  | stored (s : Snapshot) (settings : Settings) (c : Chain) (hc : s.toChain settings = .ok c) :
      Initial c

theorem LinkRecord.stamp_of_toLink_eq_ok {r : LinkRecord} {stamp : Stamp} {link : Link}
    (h : r.toLink stamp = .ok link) : link.stamp = stamp ∧ link.source = none := by
  unfold toLink at h
  obtain ⟨formula, -, h⟩ := exists_of_bind_eq_ok h
  obtain ⟨law, -, h⟩ := exists_of_bind_eq_ok h
  obtain ⟨lattice, -, h⟩ := exists_of_bind_eq_ok h
  simp only [pure, Except.pure, Except.ok.injEq] at h
  rw [← h]
  exact ⟨rfl, rfl⟩

theorem Snapshot.exists_of_toChain_eq_ok {s : Snapshot} {settings : Settings} {c : Chain}
    (h : s.toChain settings = .ok c) :
    (∃ start goal, c = begin start goal)
      ∨ c.startStamp = ⟨0⟩ ∧ c.stamp = ⟨c.links.length + 1⟩
        ∧ List.Forall₂ (fun a link => a.1.toLink ⟨a.2 + 1⟩ = .ok link) s.links.zipIdx c.links := by
  unfold toChain at h
  obtain ⟨start, -, h⟩ := exists_of_bind_eq_ok h
  obtain ⟨goal, -, h⟩ := exists_of_bind_eq_ok h
  split at h
  . simp only [Except.ok.injEq] at h
    exact .inl ⟨start, goal, h.symm⟩
  . obtain ⟨links, hlinks, h⟩ := exists_of_bind_eq_ok h
    simp only [Except.ok.injEq] at h
    subst h
    exact .inr ⟨rfl, rfl, forall₂_of_mapM_eq_ok hlinks⟩

namespace Initial

variable {c : Chain} (h : Initial c)
include h

theorem source_eq_none : ∀ link ∈ c.links, link.source = none := by
  have hbegin : ∀ start goal, ∀ link ∈ (begin start goal).links, link.source = none := by
    simp [begin, Link.new]
  cases h with
  | fresh start goal => exact hbegin start goal
  | stored s settings c hc =>
    rcases Snapshot.exists_of_toChain_eq_ok hc with ⟨start, goal, rfl⟩ | ⟨-, -, hlinks⟩
    . exact hbegin start goal
    . intro link hlink
      obtain ⟨a, -, hlink⟩ := exists_left_of_forall₂ hlinks hlink
      exact (LinkRecord.stamp_of_toLink_eq_ok hlink).2

theorem stamps_eq_first :
    c.startStamp :: c.links.map Link.stamp = Stamp.first (c.links.length + 1)
      ∧ c.stamp = ⟨c.links.length + 1⟩ := by
  cases h with
  | fresh start goal => exact ⟨rfl, rfl⟩
  | stored s settings c hc =>
    rcases Snapshot.exists_of_toChain_eq_ok hc with ⟨start, goal, rfl⟩ | ⟨hstart, hstamp, hlinks⟩
    . exact ⟨rfl, rfl⟩
    . refine ⟨?_, hstamp⟩
      have hmap := map_eq_of_forall₂_zipIdx (hlinks.imp fun _ _ hlink =>
        (LinkRecord.stamp_of_toLink_eq_ok hlink).1)
      rw [hstart, hmap, Stamp.first, List.range_succ_eq_map, List.map_cons, List.map_map]
      rfl

end Initial

end Chain

end ProofDesk
