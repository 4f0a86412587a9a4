import ProofDesk.Proofs.Citations
import ProofDesk.Proofs.Edit.Supply

/-!
This module contains the renumbering that makes room for new rows in front of a row, as a revision.
No label may leave the range of labels.
-/

namespace ProofDesk.Derivation

def InRange (rows : List Row) : Prop :=
  ∀ row ∈ rows, ∀ n ∈ row.label.parts, n < Label.maxPart

section Room

variable {faithful : Prop} {before after new : List Row} {row : Row} {k : Nat}
  (hlaid : Laid (before ++ row :: after))
  (hrange : InRange ((row :: after).map (makeRoom row.label k)))
include hrange

theorem label_makeRoom {r : Row} (hr : r ∈ row :: after) :
    (makeRoom row.label k r).label = Label.moveFrom (· + k) row.label r.label := by
  have hrange := hrange _ (List.mem_map_of_mem hr)
  unfold makeRoom at hrange ⊢
  split
  . next hk =>
    rw [if_pos hk] at hrange
    exact Label.shift_ofNat hrange
  . next hk =>
    have : k = 0 := by omega
    rw [this, Label.moveFrom_add_zero]

include hlaid

theorem map_relabel_moveFrom_add :
    (before ++ row :: after).map (relabel (Label.moveFrom (· + k) row.label))
      =
    before ++ (row :: after).map (makeRoom row.label k) := by
  by_cases hk : 0 < k
  . have hshift : ∀ r ∈ before ++ row :: after,
        r.label.shift row.label k = Label.moveFrom (· + k) row.label r.label := by
      intro r hr
      cases List.mem_append.mp hr with
      | inl hr =>
        have hbefore := hlaid.ordered.before_of_mem_left hr
        rw [Label.shift_eq_moveFrom, Label.moveFrom_of_before _ hbefore,
          Label.moveFrom_of_before _ hbefore]
      | inr hr =>
        rw [← label_makeRoom hrange hr, makeRoom_eq_shift hk]
        rfl
    have hmap := hlaid.legible.backed.map_relabel_eq [] hshift
      (fun x hx => ⟨List.mem_append_left _ hx, hlaid.ordered.before_of_mem_left hx⟩)
      (fun x hx => List.mem_append_right before hx)
    simp only [forgetAll_nil, id_eq, List.map_id] at hmap
    rw [makeRoom_eq_shift hk]
    exact hmap
  . have : k = 0 := by omega
    rw [this, makeRoom_zero, List.map_id]
    apply map_eq_self
    intro r _
    exact relabel_eq_self (Label.moveFrom_add_zero ..) fun l _ => Label.moveFrom_add_zero ..

theorem renumbers_moveFrom_add
    (hinside : ∀ x ∈ before ++ row :: after, x.label.isInside row.label = false) :
    Renumbers (Label.moveFrom (· + k) row.label) (before ++ row :: after) := by
  refine ⟨?_, ?_, ?_, ?_, ?_, ?_⟩
  . intro a _ b _
    exact Label.moveFrom_add_before k
  . intro a _ b _
    exact Label.moveFrom_add_visibleAt k
  . intro a ha b _ hin
    apply Label.moveFrom_isInside _ _ hin
    intro heq
    simp [heq, hinside a ha] at hin
  . intro a _ b _ hin
    exact .inl (Label.isInside_of_moveFrom_add_isInside k hin)
  . intro a _
    exact Label.depth_moveFrom ..
  . intro a ha
    have hvalid := hlaid.valid a ha
    cases List.mem_append.mp ha with
    | inl ha => rwa [Label.moveFrom_of_before _ (hlaid.ordered.before_of_mem_left ha)]
    | inr ha =>
      apply hvalid.moveFrom_add k
      rw [← label_makeRoom hrange ha]
      simp only [← Label.lt_maxPart_iff]
      exact hrange _ (List.mem_map_of_mem ha)

theorem revision_makeRoom
    (hinside : ∀ x ∈ before ++ row :: after, x.label.isInside row.label = false) :
    Revision faithful (before ++ row :: after)
      (before ++ (row :: after).map (makeRoom row.label k)) := by
  rw [← map_relabel_moveFrom_add hlaid hrange]
  exact .renumber _ _ (renumbers_moveFrom_add hlaid hrange hinside)

theorem ordered_insert_makeRoom
    (hnew : ∀ (t : Nat) (r : Row), new[t]? = some r → r.label = row.label.addLast t)
    (hlen : new.length = k) :
    Ordered (before ++ new ++ (row :: after).map (makeRoom row.label k)) := by
  have hne := (hlaid.valid row (by simp)).1
  subst hlen
  exact hlaid.ordered.insert_moveFrom hne hnew fun _ hr => label_makeRoom hrange hr

end Room

end ProofDesk.Derivation
