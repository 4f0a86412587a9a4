import ProofDesk.Derivation.Update
import ProofDesk.Proofs.Rows

/-!
This module contains the insertion of a conclusion, row by row.
-/

namespace ProofDesk.Derivation

theorem insertConclusion_eq {d : Derivation} {before after : List Row} {row : Row}
    (hrows : d.rows = before ++ row :: after) (label : Label) (line : Line) (conclusion : Formula)
    (previous : Stamp) (following : Option Stamp) :
    d.insertConclusion before.length label line conclusion previous following
      =
    { d with
      rows := before.map (unlink previous)
        ++ unlink previous ⟨label, conclusionLine line conclusion d.stamp⟩
          :: reset following (unlink previous (row.shift label 1))
          :: (after.map (Row.shift label 1)).map (unlink previous)
      stamp := d.stamp.next } := by
  let new : Row := ⟨label, conclusionLine line conclusion d.stamp⟩
  have hlen : before.length + 1 = (before ++ [new]).length := by simp
  have hlen' : before.length + 1 = ((before ++ [new]).map (unlink previous)).length := by simp
  have hshift : shiftFrom label (before.length + 1) 1 (d.rows.insertIdx before.length new)
      = before ++ [new] ++ (row :: after).map (Row.shift label 1) := by
    rw [hrows, insertIdx_split, List.append_cons, shiftFrom, hlen, List.take_left, List.drop_left]
  have hreset : ((before ++ [new] ++ (row :: after).map (Row.shift label 1)).map
        (unlink previous)).modify (before.length + 1) (reset following)
      = (before ++ [new]).map (unlink previous)
        ++ reset following (unlink previous (row.shift label 1))
          :: (after.map (Row.shift label 1)).map (unlink previous) := by
    rw [List.map_append, hlen', List.map_cons, List.map_cons, modify_split]
  unfold insertConclusion
  dsimp only
  rw [hshift, hreset]
  simp [new]

end ProofDesk.Derivation
