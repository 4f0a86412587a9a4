import ProofDesk.Proofs.Check
import ProofDesk.Proofs.Rows

/-!
This module contains the soundness of the check of a derivation: in a solved derivation whose
citations respect the scope of subproofs, every line follows from the start and from what is assumed
around it.
-/

namespace ProofDesk.Derivation

/--
The assignment makes true what a line labelled `l` may rest on: the start, and what is assumed by
the direct proofs around the line.
-/
def Granted (d : Derivation) (l : Label) (assign : String → Bool) : Prop :=
  d.start.eval assign = true
    ∧ ∀ h ∈ d.rows, h.line.step.rule = some .directProof → l.isInside h.label →
      ∀ a ∈ d.rows, h.line.arguments.head? = some (some a.label) → a.line.formula.eval assign = true

structure Scoped (d : Derivation) (scope : Label → Prop) : Prop where
  ordered : Ordered d.rows
  visible : ∀ row ∈ d.rows, scope row.label → row.line.step.rule ≠ some .directProof →
    ∀ label, some label ∈ row.line.arguments → label.visibleAt row.label
  children : ∀ row ∈ d.rows, scope row.label → row.line.step.rule = some .directProof →
    ∀ label, some label ∈ row.line.arguments → ∃ k, label = row.label.child k
  assumed : ∀ row ∈ d.rows, scope row.label → row.line.step.rule = some .assumption →
    row.line.formula = d.start
      ∨ ∃ h ∈ d.rows, h.line.step.rule = some .directProof ∧ row.label.isInside h.label
        ∧ h.line.arguments.head? = some (some row.label)
  of_visible : ∀ l c, scope l → c.visibleAt l → scope c
  of_child : ∀ h ∈ d.rows, h.line.step.rule = some .directProof → scope h.label →
    ∀ k, scope (h.label.child k)

variable {d : Derivation} {assign : String → Bool}

theorem Granted.of_visibleAt {l c : Label} (h : d.Granted l assign) (hc : c.visibleAt l) :
    d.Granted c assign := by
  refine ⟨h.1, ?_⟩
  intro header hheader hrule hin
  exact h.2 header hheader hrule (Label.isInside_of_visibleAt hc hin)

theorem Granted.child (hord : Ordered d.rows) {h : Row} (hh : h ∈ d.rows)
    (hl : d.Granted h.label assign)
    (ha : ∀ a ∈ d.rows, h.line.arguments.head? = some (some a.label) →
      a.line.formula.eval assign = true) (k : Nat) :
    d.Granted (h.label.child k) assign := by
  refine ⟨hl.1, ?_⟩
  intro header hheader hrule hin
  cases Label.isInside_child_iff.mp hin with
  | inl heq =>
    have : h = header := hord.eq_of_label_eq hh hheader heq
    subst this
    exact ha
  | inr hin => exact hl.2 header hheader hrule hin

section Step

variable {scope : Label → Prop} {row : Row}

def Follows (d : Derivation) (scope : Label → Prop) (row : Row) : Prop :=
  scope row.label → ∀ assign, d.Granted row.label assign → row.line.formula.eval assign = true

theorem Scoped.eval_of_cites_visible (hs : d.Scoped scope) (hscope : scope row.label)
    (hbefore : ∀ c ∈ d.rows, c.label.before row.label → d.Follows scope c)
    (hgranted : d.Granted row.label assign) {arg : Option Label} {p : Formula}
    (hvisible : ∀ label, arg = some label → label.visibleAt row.label)
    (hcites : Cites d.rows arg p) : p.eval assign = true := by
  obtain ⟨c, hc, rfl, rfl⟩ := hcites
  have hv := hvisible c.label rfl
  apply hbefore c hc
  . exact Label.before_of_visibleAt hv
  . exact hs.of_visible _ _ hscope hv
  . exact hgranted.of_visibleAt hv

theorem Scoped.eval_of_forall₂_cites (hs : d.Scoped scope) (hscope : scope row.label)
    (hbefore : ∀ c ∈ d.rows, c.label.before row.label → d.Follows scope c)
    (hgranted : d.Granted row.label assign)
    (hvisible : ∀ label, some label ∈ row.line.arguments → label.visibleAt row.label)
    {formulas : List Formula} (hcites : List.Forall₂ (Cites d.rows) row.line.arguments formulas) :
    ∀ p ∈ formulas, p.eval assign = true := by
  intro p hp
  obtain ⟨i, hi, rfl⟩ := List.getElem_of_mem hp
  have hi' : i < row.line.arguments.length := by
    rw [hcites.length_eq]
    exact hi
  apply hs.eval_of_cites_visible hscope hbefore hgranted _ (hcites.get hi' hi)
  intro label hlabel
  apply hvisible
  rw [← hlabel]
  exact List.getElem_mem hi'

theorem Scoped.eval_of_directProof (hs : d.Scoped scope) (hrow : row ∈ d.rows)
    (hscope : scope row.label) (hrule : row.line.step.rule = some .directProof)
    (hbefore : ∀ c ∈ d.rows, c.label.before row.label → d.Follows scope c)
    (hgranted : d.Granted row.label assign) {premise goal : Formula}
    (hcites : List.Forall₂ (Cites d.rows) row.line.arguments [premise, goal])
    (hpremise : premise.eval assign = true) : goal.eval assign = true := by
  -- A direct proof reaches its second citation inside its subproof, where its first one is granted.
  generalize hargs : row.line.arguments = args at hcites
  cases hcites with
  | cons hfirst hrest =>
    cases hrest with
    | cons hsecond hnil =>
      cases hnil
      obtain ⟨a, ha, rfl, rfl⟩ := hfirst
      obtain ⟨c, hc, rfl, rfl⟩ := hsecond
      obtain ⟨k, hk⟩ := hs.children row hrow hscope hrule c.label (by simp [hargs])
      apply hbefore c hc
      . rw [hk]
        exact Label.before_of_isInside (Label.isInside_child _ _)
      . rw [hk]
        exact hs.of_child row hrow hrule hscope k
      . rw [hk]
        apply hgranted.child hs.ordered hrow
        intro a' ha' hhead
        simp only [hargs, List.head?_cons, Option.some.injEq] at hhead
        rw [← hs.ordered.eq_of_label_eq ha ha' hhead]
        exact hpremise

theorem Scoped.eval_of_assumption (hs : d.Scoped scope) (hrow : row ∈ d.rows)
    (hscope : scope row.label) (hrule : row.line.step.rule = some .assumption)
    (hgranted : d.Granted row.label assign) : row.line.formula.eval assign = true := by
  cases hs.assumed row hrow hscope hrule with
  | inl hstart =>
    rw [hstart]
    exact hgranted.1
  | inr h =>
    obtain ⟨h, hh, hdp, hin, hhead⟩ := h
    exact hgranted.2 h hh hdp hin row hrow hhead

theorem Scoped.follows_of_justified (hs : d.Scoped scope) (hrow : row ∈ d.rows)
    (hbefore : ∀ c ∈ d.rows, c.label.before row.label → d.Follows scope c)
    (hjust : Justified d.rows row) : d.Follows scope row := by
  intro hscope assign hgranted
  cases hjust with
  | forward premises hconclude hvisible hcites =>
    apply Step.conclude_sound assign hconclude
    exact hs.eval_of_forall₂_cites hscope hbefore hgranted hvisible hcites
  | backward goals hreduce hcites =>
    by_cases hassumption : row.line.step.rule = some .assumption
    . exact hs.eval_of_assumption hrow hscope hassumption hgranted
    . by_cases hdp : row.line.step.rule = some .directProof
      . obtain ⟨premise, goal, hformula, rfl⟩ := Step.reduce_directProof hreduce hdp
        have := hs.eval_of_directProof hrow hscope hdp hbefore hgranted hcites
        rw [hformula]
        cases hpremise : premise.eval assign with
        | false => simp [hpremise]
        | true => simp [this hpremise]
      . have hvisible := hs.visible row hrow hscope hdp
        have hgoals := hs.eval_of_forall₂_cites hscope hbefore hgranted hvisible hcites
        apply Step.reduce_sound assign hreduce hdp hassumption hgoals
        apply List.mem_singleton_self

end Step

theorem Scoped.follows {scope : Label → Prop} (hs : d.Scoped scope)
    (hsolved : d.isSolved = .ok true) : ∀ row ∈ d.rows, d.Follows scope row := by
  refine hs.ordered.induction ?_
  intro row hrow hbefore
  exact hs.follows_of_justified hrow hbefore (justified_of_isSolved hsolved hrow)

theorem granted_of_depth_eq_one (hlabels : ∀ h ∈ d.rows, h.label.parts ≠ []) {l : Label}
    (hl : l.depth = 1) (hstart : d.start.eval assign = true) : d.Granted l assign := by
  refine ⟨hstart, ?_⟩
  intro h hh _ hin
  have hdepth := Label.depth_lt_of_isInside hin
  have hne : h.label.depth ≠ 0 := by
    simpa [Label.depth] using hlabels h hh
  omega

/--
Logical soundness of the check. The labels are in proof order; only direct proofs cite what is not
visible, namely two lines of their own subproofs; and an assumption is the start in the first line
or what a direct proof cites first. Then every line of a solved derivation follows from the start
and what the direct proofs around it cite first, and the lines outside of all subproofs follow from
the start alone.
-/
theorem eval_of_isSolved (d : Derivation) (hord : Ordered d.rows)
    (hvisible : ∀ row ∈ d.rows, row.line.step.rule ≠ some .directProof → citesVisible row = true)
    (hdirect : ∀ row ∈ d.rows, row.line.step.rule = some .directProof →
      ∃ m n, row.line.arguments = [some (row.label.child m), some (row.label.child n)])
    (hassumed : ∀ row ∈ d.rows, row.line.step.rule = some .assumption →
      d.rows.head? = some row ∧ row.line.formula = d.start
        ∨ ∃ h ∈ d.rows, h.line.step.rule = some .directProof
          ∧ h.line.arguments.head? = some (some row.label))
    (hsolved : d.isSolved = .ok true) :
    (∀ row ∈ d.rows, ∀ assign, d.Granted row.label assign → row.line.formula.eval assign = true)
      ∧
    ((∀ row ∈ d.rows, row.label.parts ≠ []) →
      ∀ row ∈ d.rows, row.label.depth = 1 → d.start.Entails row.line.formula) := by
  have hscoped : d.Scoped fun _ => True := by
    refine ⟨hord, ?_, ?_, ?_, fun _ _ _ _ => trivial, fun _ _ _ _ _ => trivial⟩
    . intro row hrow _ hrule
      exact citesVisible_iff.mp (hvisible row hrow hrule)
    . intro row hrow _ hrule label hlabel
      obtain ⟨m, n, hargs⟩ := hdirect row hrow hrule
      simp only [hargs, List.mem_cons, Option.some.injEq, List.not_mem_nil, or_false] at hlabel
      cases hlabel with
      | inl h => exact ⟨m, h⟩
      | inr h => exact ⟨n, h⟩
    . intro row hrow _ hrule
      cases hassumed row hrow hrule with
      | inl h => exact .inl h.2
      | inr h =>
        obtain ⟨h, hh, hdp, hhead⟩ := h
        obtain ⟨m, n, hargs⟩ := hdirect h hh hdp
        have hlabel : row.label = h.label.child m := by simpa [hargs] using hhead.symm
        exact .inr ⟨h, hh, hdp, hlabel ▸ Label.isInside_child _ _, hhead⟩
  have hfollows := hscoped.follows hsolved
  constructor
  . intro row hrow
    exact hfollows row hrow trivial
  . intro hlabels row hrow hdepth assign hstart
    exact hfollows row hrow trivial assign (granted_of_depth_eq_one hlabels hdepth hstart)

def nestedExample : Derivation :=
  let t : Formula := .const true
  let f : Formula := .const false
  let line (p : Formula) (step : Step) (arguments : List (Option Label)) : Line :=
    { Line.new p ⟨0⟩ step true true with arguments }
  let inner := Formula.imp t (.conj f t)
  { start := t
    goal := .imp f inner
    stamp := ⟨1⟩
    rows :=
      [⟨⟨[1]⟩, line t .assumption []⟩,
        ⟨⟨[2, 1]⟩, line f .assumption []⟩,
        ⟨⟨[2, 2, 1]⟩, line t .assumption []⟩,
        ⟨⟨[2, 2, 2]⟩, line (.conj f t) (.ofRule (some .introAnd) .forward)
          [some ⟨[2, 1]⟩, some ⟨[2, 2, 1]⟩]⟩,
        ⟨⟨[2, 2]⟩, line inner (.ofRule (some .directProof) .backward)
          [some ⟨[2, 2, 1]⟩, some ⟨[2, 2, 2]⟩]⟩,
        ⟨⟨[2]⟩, line (.imp f inner) (.ofRule (some .directProof) .backward)
          [some ⟨[2, 1]⟩, some ⟨[2, 2]⟩]⟩] }

theorem nestedExample_start_entails_goal :
    nestedExample.isSolved = .ok true
      ∧
    ∀ row ∈ nestedExample.rows, row.label.depth = 1 →
      nestedExample.start.Entails row.line.formula := by
  have hdirect : ∀ row ∈ nestedExample.rows, row.line.step.rule = some .directProof →
      row.line.arguments = [some (row.label.child 1), some (row.label.child 2)] := by decide
  have hsound := eval_of_isSolved nestedExample
    (by
      unfold Ordered
      decide)
    (by decide)
    (fun row hrow hrule => ⟨1, 2, hdirect row hrow hrule⟩)
    (by decide)
    (by decide)
  exact ⟨by decide, hsound.2 (by decide)⟩

end ProofDesk.Derivation
