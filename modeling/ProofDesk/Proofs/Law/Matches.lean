import ProofDesk.Law.Reading
import ProofDesk.Proofs.Formula.Positions

/-!
This module contains the matches of a law by their positions: there are as many as are counted, and
to use the law on the match with a given number is to replace what stands at its position.
-/

namespace ProofDesk.Reading

open Formula (Occurs)

def rootPositions (r : Reading) (p : Formula) : List Position :=
  if r.isMatch p then [[]] else []

def positionsBelow (r : Reading) : Formula → List Position
  | .const _ => []
  | .var _ => []
  | .neg inner => (r.matchPositions inner).map (0 :: ·)
  | .bin _ left right =>
    (r.matchPositions left).map (0 :: ·) ++ (r.matchPositions right).map (1 :: ·)

def atNthBelow (r : Reading) (n : Nat) : Formula → Formula
  | .neg inner => .neg (r.atNth n inner)
  | .bin c left right =>
    if n < r.matchCount left then .bin c (r.atNth n left) right
    else .bin c left (r.atNth (n - r.matchCount left) right)
  | p => p

variable {r : Reading} {p sub q : Formula} {pos : Position} {n : Nat}

section Positions

theorem matchPositions_eq_append (r : Reading) (p : Formula) :
    r.matchPositions p = r.rootPositions p ++ r.positionsBelow p := by
  have hroot : ∀ poss : List Position,
      ([] :: poss).filter (fun pos => (p.at? pos).any r.isMatch)
        = r.rootPositions p ++ poss.filter (fun pos => (p.at? pos).any r.isMatch) := by
    intro poss
    rw [List.filter_cons, Formula.at?_nil, Option.any_some]
    unfold rootPositions
    split <;> rfl
  cases p with
  | const value => exact hroot []
  | var name => exact hroot []
  | neg inner =>
    rw [matchPositions, Formula.positions, hroot, List.filter_map]
    rfl
  | bin c left right =>
    rw [matchPositions, Formula.positions, hroot, List.filter_append, List.filter_map,
      List.filter_map]
    rfl

theorem map_at?_rootPositions (r : Reading) (p : Formula) :
    (r.rootPositions p).map p.at? = (matchesIn.here r p).map some := by
  unfold rootPositions matchesIn.here
  split
  . rw [List.map_singleton, List.map_singleton, Formula.at?_nil]
  . rfl

theorem map_at?_matchPositions (r : Reading) (p : Formula) :
    (r.matchPositions p).map p.at? = (r.matchesIn p).map some := by
  induction p with
  | const value =>
    rw [matchPositions_eq_append, List.map_append, map_at?_rootPositions]
    simp [positionsBelow, matchesIn]
  | var name =>
    rw [matchPositions_eq_append, List.map_append, map_at?_rootPositions]
    simp [positionsBelow, matchesIn]
  | neg inner ih =>
    rw [matchPositions_eq_append, List.map_append, map_at?_rootPositions]
    simp [positionsBelow, matchesIn, Function.comp_def, ih]
  | bin c left right ihl ihr =>
    rw [matchPositions_eq_append, List.map_append, map_at?_rootPositions]
    simp [positionsBelow, matchesIn, Function.comp_def, ihl, ihr]

theorem length_matchPositions (r : Reading) (p : Formula) :
    (r.matchPositions p).length = r.matchCount p := by
  have h := congrArg List.length (map_at?_matchPositions r p)
  rwa [List.length_map, List.length_map] at h

theorem mem_matchPositions_iff :
    pos ∈ r.matchPositions p ↔ ∃ sub q, Occurs sub p pos ∧ r.atRoot? sub = some q := by
  rw [matchPositions, List.mem_filter, Formula.mem_positions_iff]
  simp only [Option.any_eq_true, Formula.at?_eq_some_iff, isMatch, Option.isSome_iff_exists]
  constructor
  . rintro ⟨-, sub, hsub, q, hq⟩
    exact ⟨sub, q, hsub, hq⟩
  . rintro ⟨sub, q, hsub, hq⟩
    exact ⟨⟨sub, hsub⟩, sub, hsub, q, hq⟩

theorem nodup_matchPositions (r : Reading) (p : Formula) : (r.matchPositions p).Nodup := by
  unfold matchPositions
  exact (Formula.nodup_positions p).filter _

end Positions

section Nth

theorem atNth_eq (r : Reading) (n : Nat) (p : Formula) :
    r.atNth n p
      =
    match r.atRoot? p, n with
    | some q, 0 => q
    | some _, n + 1 => r.atNthBelow n p
    | none, n => r.atNthBelow n p := by
  unfold atNth atNthBelow
  cases hroot : r.atRoot? p with
  | none => cases p <;> rfl
  | some q => cases n <;> cases p <;> rfl

theorem atNth_eq_replaceAt_of_below
    (hbelow : ∀ n pos, (r.positionsBelow p)[n]? = some pos → Occurs sub p pos →
      r.atNthBelow n p = p.replaceAt pos q)
    (hpos : (r.matchPositions p)[n]? = some pos) (hsub : Occurs sub p pos)
    (hq : r.atRoot? sub = some q) : r.atNth n p = p.replaceAt pos q := by
  rw [matchPositions_eq_append, rootPositions, isMatch] at hpos
  rw [atNth_eq]
  cases hroot : r.atRoot? p with
  | none =>
    rw [hroot] at hpos
    exact hbelow n pos (by simpa using hpos) hsub
  | some q' =>
    rw [hroot] at hpos
    cases n with
    | zero =>
      obtain rfl : pos = [] := by simpa using hpos.symm
      cases hsub
      rw [hq, Option.some.injEq] at hroot
      rw [Formula.replaceAt_nil, hroot]
    | succ n => exact hbelow n pos (by simpa using hpos) hsub

theorem atNth_eq_replaceAt (hpos : (r.matchPositions p)[n]? = some pos) (hsub : Occurs sub p pos)
    (hq : r.atRoot? sub = some q) : r.atNth n p = p.replaceAt pos q := by
  induction p generalizing n pos with
  | const value =>
    apply atNth_eq_replaceAt_of_below _ hpos hsub hq
    simp [positionsBelow]
  | var name =>
    apply atNth_eq_replaceAt_of_below _ hpos hsub hq
    simp [positionsBelow]
  | neg inner ih =>
    apply atNth_eq_replaceAt_of_below _ hpos hsub hq
    intro n pos hpos hsub
    rw [positionsBelow, List.getElem?_map, Option.map_eq_some_iff] at hpos
    obtain ⟨pos, hpos, rfl⟩ := hpos
    cases hsub with
    | neg hsub => rw [atNthBelow, Formula.replaceAt, ih hpos hsub]
  | bin c left right ihl ihr =>
    apply atNth_eq_replaceAt_of_below _ hpos hsub hq
    intro n pos hpos hsub
    rw [positionsBelow, List.getElem?_append, List.length_map, length_matchPositions] at hpos
    rw [atNthBelow]
    split at hpos
    . next hn =>
      rw [List.getElem?_map, Option.map_eq_some_iff] at hpos
      obtain ⟨pos, hpos, rfl⟩ := hpos
      cases hsub with
      | left hsub => rw [if_pos hn, Formula.replaceAt, ihl hpos hsub]
    . next hn =>
      rw [List.getElem?_map, Option.map_eq_some_iff] at hpos
      obtain ⟨pos, hpos, rfl⟩ := hpos
      cases hsub with
      | right hsub => rw [if_neg hn, Formula.replaceAt, ihr hpos hsub]

theorem exists_of_lt_matchCount (hn : n < r.matchCount p) :
    ∃ pos sub new, (r.matchPositions p)[n]? = some pos ∧ Occurs sub p pos
      ∧ r.atRoot? sub = some new ∧ r.atNth n p = p.replaceAt pos new := by
  rw [← length_matchPositions] at hn
  have hpos := List.getElem?_eq_getElem hn
  obtain ⟨sub, new, hsub, hnew⟩ := mem_matchPositions_iff.mp (List.mem_of_getElem? hpos)
  exact ⟨_, sub, new, hpos, hsub, hnew, atNth_eq_replaceAt hpos hsub hnew⟩

end Nth

end ProofDesk.Reading
