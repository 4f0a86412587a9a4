import ProofDesk.Proofs.Chain.Formulas
import ProofDesk.Proofs.Chain.Goal
import ProofDesk.Proofs.Law.Readable
import ProofDesk.Proofs.Snapshot

/-!
This module contains the verdicts on a chain that is stored and read back. They stay as they are, on
every link whose chosen match has a number that fits 64 bits with a sign. A larger number is read
back as no choice at all, and the law is then used on every match.
-/

namespace ProofDesk

theorem Code.toChosen_ofChosen_eq_none {n : Nat} (hle : chosenLimit ≤ n) (hlt : n < Json.wordSize) :
    toChosen (ofChosen (some n)) = none := by
  unfold toChosen ofChosen
  rw [Option.elim_some, if_neg]
  simp only [Int.bmod, Json.wordSize, chosenLimit] at *
  omega

def Link.Fits (link : Link) : Prop :=
  ∀ n, link.chosen = some n → n < Code.chosenLimit

namespace Chain

variable (c : Chain) (i : Nat)

theorem map_above?_eq_getElem?_formulas : (c.above? i).map Prod.fst = c.formulas[i]? := by
  cases i with
  | zero => rfl
  | succ i =>
    rw [above?, formulas, List.getElem?_cons_succ, List.getElem?_map, Option.map_map]
    rfl

theorem isCorrect_eq :
    c.isCorrect i
      =
    match c.links[i]?, c.formulas[i]? with
    | some link, some above => .ok (link.isCorrect above)
    | _, _ => .error (.noLine i) := by
  rw [← map_above?_eq_getElem?_formulas]
  unfold isCorrect above Chain.link
  cases c.links[i]? with
  | none => rfl
  | some link => cases c.above? i <;> rfl

theorem map_formula_restored : c.restored.links.map Link.formula = c.links.map Link.formula := by
  have hfst : c.links = c.links.zipIdx.map Prod.fst := by rw [List.zipIdx_map_fst]
  unfold restored
  rw [List.map_map]
  conv => rhs; rw [hfst, List.map_map]
  rfl

theorem formulas_restored : c.restored.formulas = c.formulas :=
  congrArg (c.start :: ·) c.map_formula_restored

theorem formulas_kept : c.kept.formulas = c.formulas := by
  unfold formulas kept
  rw [List.map_map]
  rfl

theorem isCorrect_restored : c.restored.isCorrect i = c.isCorrect i := by
  rw [isCorrect_eq, isCorrect_eq, formulas_restored]
  have hlink : c.restored.links[i]? = c.links[i]?.map fun link => link.restored ⟨i + 1⟩ := by
    unfold restored
    rw [List.getElem?_map, List.getElem?_zipIdx]
    cases c.links[i]? with
    | none => rfl
    | some link => simp
  rw [hlink]
  cases c.links[i]? with
  | none => rfl
  | some link => cases c.formulas[i]? <;> rfl

theorem isCorrect_kept :
    c.kept.isCorrect i
      =
    match c.links[i]?, c.formulas[i]? with
    | some link, some above => .ok (link.kept.isCorrect above)
    | _, _ => .error (.noLine i) := by
  rw [isCorrect_eq, formulas_kept]
  have hlink : c.kept.links[i]? = c.links[i]?.map Link.kept := by
    unfold kept
    rw [List.getElem?_map]
  rw [hlink]
  cases c.links[i]? with
  | none => rfl
  | some link => cases c.formulas[i]? <;> rfl

theorem allCorrect_map_restored (above : Formula) (links : List Link) (k : Nat) :
    allCorrect above ((links.zipIdx k).map fun a => a.1.restored ⟨a.2 + 1⟩)
      =
    allCorrect above links := by
  induction links generalizing above k with
  | nil => rfl
  | cons link links ih =>
    rw [List.zipIdx_cons, List.map_cons, allCorrect, allCorrect, ih]
    rfl

theorem isSolved_restored : c.restored.isSolved = c.isSolved := by
  have hlast : ∀ (links : List Link) (p : Formula),
      links.getLast?.any (·.formula == p) = (links.map Link.formula).getLast?.any (· == p) := by
    intro links p
    rw [List.getLast?_map, Option.any_map]
  unfold isSolved
  rw [hlast, hlast, map_formula_restored]
  exact congrArg _ (allCorrect_map_restored c.start c.links 0)

variable {c i}

theorem isCorrect_kept_of_fits (h : ∀ link, c.link i = .ok link → link.Fits) :
    c.kept.isCorrect i = c.isCorrect i := by
  rw [isCorrect_kept, isCorrect_eq]
  cases hlink : c.links[i]? with
  | none => rfl
  | some link =>
    have hkept := Link.kept_eq_self (h link (link_eq_ok.mpr hlink))
    cases c.formulas[i]? with
    | none => rfl
    | some above =>
      dsimp only
      rw [hkept]

theorem getElem?_formulas_of_above_eq_ok {above : Formula} {stamp : Stamp}
    (h : c.above i = .ok (above, stamp)) : c.formulas[i]? = some above := by
  unfold Chain.above at h
  obtain ⟨link, -, h⟩ := exists_of_bind_eq_ok h
  rw [← map_above?_eq_getElem?_formulas]
  split at h
  . next found hfound =>
    obtain rfl := by simpa using h
    rw [hfound, Option.map_some]
  . simp at h

theorem isCorrect_kept_of_le {link : Link} {above : Formula} {stamp : Stamp} {n : Nat}
    (hlink : c.link i = .ok link) (habove : c.above i = .ok (above, stamp))
    (hchosen : link.chosen = some n) (hle : Code.chosenLimit ≤ n) (hlt : n < Json.wordSize) :
    c.kept.isCorrect i = .ok ({ link with chosen := none }.isCorrect above) := by
  have hkept : link.kept = { link with chosen := none } := by
    unfold Link.kept
    rw [hchosen, Code.toChosen_ofChosen_eq_none hle hlt]
  rw [isCorrect_kept, link_eq_ok.mp hlink, getElem?_formulas_of_above_eq_ok habove]
  dsimp only
  rw [hkept]

/--
A chain that is reached by edits is read back whatever the settings. The verdict on a link stays if
its chosen match has a number that fits, and the verdict on the chain stays if all of them have. A
link whose number is too large is judged as if no match were chosen.
-/
theorem verdicts_of_toChain (startText goalText : String) (start goal : Formula)
    (hstart : Formula.ofText startText = .ok start) (hgoal : Formula.ofText goalText = .ok goal)
    (edits : List Edit) (c : Chain) (happly : (begin start goal).applyAll edits = .ok c)
    (settings : Settings) :
    ∃ d, (Snapshot.ofChain c).toChain settings = .ok d
      ∧ d.size = c.size
      ∧ (∀ i, (∀ link, c.link i = .ok link → link.Fits) → d.isCorrect i = c.isCorrect i)
      ∧ ((∀ link ∈ c.links, link.Fits) → d.isSolved = c.isSolved)
      ∧ ∀ i link above stamp n, c.link i = .ok link → c.above i = .ok (above, stamp) →
          link.chosen = some n → Code.chosenLimit ≤ n → n < Json.wordSize →
          d.isCorrect i = .ok ({ link with chosen := none }.isCorrect above) := by
  have hstart := Formula.isReadable_of_ofText_eq_ok hstart
  have hgoal := Formula.isReadable_of_ofText_eq_ok hgoal
  have hends := start_eq_and_goal_eq_of_applyAll happly
  have hformulas : ∀ p ∈ c.formulas, p.isReadable := by
    refine forall_formulas_of_applyAll (motive := fun p => p.isReadable) ?_ ?_ happly
    . intro r p q hrewrites
      exact hrewrites.isReadable
    . simp [formulas, begin, Link.new, hstart, hgoal]
  have htoChain : (Snapshot.ofChain c).toChain settings = .ok c.kept.restored := by
    apply toChain_ofChain
    . exact links_ne_nil_of_applyAll (by simp [begin]) happly
    . rw [hends.1]
      exact hstart
    . rw [hends.2]
      exact hgoal
    . intro link hlink
      apply hformulas
      exact List.mem_cons_of_mem _ (List.mem_map_of_mem hlink)
  refine ⟨c.kept.restored, htoChain, ?_, ?_, ?_, ?_⟩
  . simp [size, restored, kept]
  . intro i hfits
    rw [isCorrect_restored]
    exact isCorrect_kept_of_fits hfits
  . intro hfits
    rw [isSolved_restored, kept_eq_self hfits]
  . intro i link above stamp n hlink habove hchosen hle hlt
    rw [isCorrect_restored]
    exact isCorrect_kept_of_le hlink habove hchosen hle hlt

def swapEdits : List Edit :=
  [⟨0, .change (.setLaw (some .deMorgan))⟩,
    ⟨1, .change (.setLaw (some .commutativity))⟩,
    ⟨2, .change (.setLeftToRight false)⟩,
    ⟨2, .change (.setLaw (some .implication))⟩,
    ⟨1, .change (.setChosen (some 0))⟩]

theorem swapEdits_verdicts :
    ∃ start goal c d, Formula.ofText "not (P and Q)" = .ok start
      ∧ Formula.ofText "Q implies not P" = .ok goal
      ∧ (begin start goal).applyAll swapEdits = .ok c
      ∧ (Snapshot.ofChain c).toChain .standard = .ok d
      ∧ (∀ i, d.isCorrect i = c.isCorrect i)
      ∧ c.isSolved = true ∧ d.isSolved = true := by
  let start : Formula := .neg (.conj (.var "P") (.var "Q"))
  let goal : Formula := .imp (.var "Q") (.neg (.var "P"))
  have hstart : Formula.ofText "not (P and Q)" = .ok start := by rfl
  have hgoal : Formula.ofText "Q implies not P" = .ok goal := by rfl
  have hrun : ((begin start goal).applyAll swapEdits).toOption.map
      (fun c => (c.isSolved, c.links.map Link.chosen)) = some (true, [none, some 0, none]) := by
    decide +kernel
  obtain ⟨c, happly, hc⟩ := exists_of_map_toOption_eq_some hrun
  rw [Prod.mk.injEq] at hc
  have hfits : ∀ link ∈ c.links, link.Fits := by
    intro link hlink n hn
    have hmem : some n ∈ c.links.map Link.chosen := hn ▸ List.mem_map_of_mem hlink
    rw [hc.2] at hmem
    obtain rfl : n = 0 := by simpa using hmem
    decide
  obtain ⟨d, hd, -, hcorrect, hsolved, -⟩ :=
    verdicts_of_toChain _ _ start goal hstart hgoal swapEdits c happly .standard
  refine ⟨start, goal, c, d, hstart, hgoal, happly, hd, ?_, hc.1, ?_⟩
  . intro i
    apply hcorrect
    intro link hlink
    exact hfits link (List.mem_of_getElem? (link_eq_ok.mp hlink))
  . rw [hsolved hfits]
    exact hc.1

/--
From `P and T` to `P` by the law of identity on a match that is not there, with the largest number
of 64 bits: the chain is not solved, and is solved once it has been stored and read back.
-/
theorem toChain_isSolved_ne :
    ∃ start goal c d, Formula.ofText "P and T" = .ok start ∧ Formula.ofText "P" = .ok goal
      ∧ (begin start goal).applyAll
          [⟨0, .change (.setChosen (some 18446744073709551615))⟩,
            ⟨0, .change (.setLaw (some .identity))⟩] = .ok c
      ∧ (Snapshot.ofChain c).toChain .standard = .ok d
      ∧ c.isCorrect 0 = .ok false ∧ d.isCorrect 0 = .ok true
      ∧ c.isSolved = false ∧ d.isSolved = true := by
  let start : Formula := .conj (.var "P") (.const true)
  let goal : Formula := .var "P"
  let c (chosen : Option Nat) : Chain :=
    { begin start goal with
      links := [{ Link.new goal ⟨1⟩ .forward with reading := .ofLaw .identity, chosen }] }
  have hkept : (c (some 18446744073709551615)).kept.restored = c none := by
    have hnone : Code.toChosen (Code.ofChosen (some 18446744073709551615)) = none := by decide
    simp [c, kept, Link.kept, hnone, restored, Link.restored, Link.new, begin]
  have hreload : (Snapshot.ofChain (c (some 18446744073709551615))).toChain .standard
      = .ok (c none) := by
    rw [← hkept]
    apply toChain_ofChain
    . simp [c]
    . decide
    . decide
    . decide
  refine ⟨start, goal, c (some 18446744073709551615), c none, rfl, rfl, rfl, hreload, ?_⟩
  exact ⟨rfl, rfl, rfl, rfl⟩

end Chain

end ProofDesk
