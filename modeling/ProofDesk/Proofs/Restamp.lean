import ProofDesk.Proofs.Edit.Supply
import ProofDesk.Proofs.Survivors

/-!
This module contains derivations that differ in their stamps only. Pruning does not look at stamps.
The lines that are put in for goals take the next ones, but apart from that they depend only on
where the goals are held already.
-/

namespace ProofDesk

def Stamp.raise (first : Stamp) (k : Nat) (s : Stamp) : Stamp :=
  if s.number < first.number then s else ⟨s.number + k⟩

theorem Stamp.raise_of_lt {first s : Stamp} (h : s.number < first.number) (k : Nat) :
    first.raise k s = s := by
  rw [raise, if_pos h]

theorem Stamp.raise_of_le {first s : Stamp} (h : first.number ≤ s.number) (k : Nat) :
    first.raise k s = ⟨s.number + k⟩ := by
  rw [raise, if_neg (by omega)]

def Row.restamp (rename : Stamp → Stamp) (row : Row) : Row :=
  { row with line := { row.line with
      stamp := rename row.line.stamp
      source := row.line.source.map rename } }

theorem Row.restamp_eq_self {rename : Stamp → Stamp} {row : Row}
    (hstamp : rename row.line.stamp = row.line.stamp)
    (hsource : ∀ s, row.line.source = some s → rename s = s) : row.restamp rename = row := by
  have hsource : row.line.source.map rename = row.line.source := by
    cases hs : row.line.source with
    | none => rfl
    | some s => rw [Option.map_some, hsource s hs]
  rw [restamp, hstamp, hsource]

namespace Derivation

def restamp (rename : Stamp → Stamp) (d : Derivation) : Derivation :=
  { d with
    rows := d.rows.map (Row.restamp rename)
    stamp := rename d.stamp }

theorem prune_restamp_prune {rows : List Row} (hdepth : ∀ row ∈ rows, 0 < row.label.depth)
    (rename : Stamp → Stamp) :
    prune ((prune rows).map (Row.restamp rename)) = (prune rows).map (Row.restamp rename) := by
  cases rows with
  | nil => rfl
  | cons first rows =>
    rw [List.forall_mem_cons] at hdepth
    rw [prune_cons_eq hdepth.2, List.map_cons, List.map_cons]
    apply prune_eq_self
    . simp only [List.forall_mem_map, Row.restamp, label_forgetAll]
      intro row hrow
      exact hdepth.2 row ((sift_sublist false rows).subset hrow)
    . rw [List.isChain_map]
      exact isChain_map_forgetAll (isChain_sift rows) _

theorem fill_raise (held : Formula → Option Label) (base : Label) {stamp source : Stamp}
    (hsource : source.number < stamp.number) (k : Nat) (goals : List Formula) :
    fill held base ⟨stamp.number + k⟩ source goals
      =
    ⟨(fill held base stamp source goals).new.map (Row.restamp (stamp.raise k)),
      (fill held base stamp source goals).arguments⟩ := by
  induction goals using List.reverseRecOn with
  | nil => rfl
  | append_singleton goals goal ih =>
    rw [fill_concat, fill_concat, ih]
    generalize fill held base stamp source goals = s
    have hfind : ((s.new.map (Row.restamp (stamp.raise k))).find?
          fun row => row.line.formula == goal).map Row.label
        = (s.new.find? fun row => row.line.formula == goal).map Row.label := by
      rw [List.find?_map, Option.map_map]
      rfl
    unfold Filling.next
    dsimp only
    rw [hfind]
    generalize (held goal <|>
      (s.new.find? fun row => row.line.formula == goal).map Row.label) = found
    cases found with
    | some label => rfl
    | none =>
      simp [Row.restamp, goalLine, Line.new, Stamp.raise_of_lt hsource,
        Stamp.raise_of_le (Nat.le_add_right stamp.number s.new.length), Nat.add_right_comm]

end Derivation

end ProofDesk
