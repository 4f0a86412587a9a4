import ProofDesk.Proofs.Fitted
import ProofDesk.Proofs.Formula.Printing
import ProofDesk.Proofs.Label.Text
import ProofDesk.Snapshot.Chain

/-!
This module contains what becomes of a proof that is stored and read back. Formulas, labels and
choices are kept. What is lost are the stamps, which are numbered anew, the sources, the side of an
equivalence step (where it means nothing), and for a chain the choice of links that are shown in
full.
-/

namespace ProofDesk

namespace Code

structure Faithful {α : Type} (code : α → Nat) (ofCode? : Nat → Option α) : Prop where
  pos : ∀ a, 0 < code a
  ofCode?_code : ∀ a, ofCode? (code a) = some a

theorem faithful_rule : Faithful Rule.code Rule.ofCode? := by
  constructor <;> intro a <;> cases a <;> decide

theorem faithful_law : Faithful Law.code Law.ofCode? := by
  constructor <;> intro a <;> cases a <;> decide

theorem faithful_side : Faithful Side.code Side.ofCode? := by
  constructor <;> intro a <;> cases a <;> decide

theorem faithful_lattice : Faithful Lattice.code Lattice.ofCode? := by
  constructor <;> intro a <;> cases a <;> decide

theorem toChoice_ofChoice {α : Type} {code : α → Nat} {ofCode? : Nat → Option α}
    (h : Faithful code ofCode?) (error : Int → SnapshotError) (choice : Option α) :
    toChoice ofCode? error (ofChoice code choice) = .ok choice := by
  cases choice with
  | none => rfl
  | some a =>
    have hpos := h.pos a
    unfold toChoice ofChoice
    rw [Option.elim_some, if_neg (by omega), if_pos (by omega), Int.toNat_natCast, h.ofCode?_code]

/--
The least number of a match that is stored as a negative number: `2 ^ 63`, half of the word size.
-/
def chosenLimit : Nat := 9223372036854775808

theorem chosenLimit_mul_two : chosenLimit * 2 = Json.wordSize := by
  rfl

theorem toChosen_ofChosen {chosen : Option Nat} (h : ∀ n, chosen = some n → n < chosenLimit) :
    toChosen (ofChosen chosen) = chosen := by
  cases chosen with
  | none => rfl
  | some n =>
    have hn := h n rfl
    have hbmod : (n : Int).bmod Json.wordSize = n := by
      apply Int.bmod_eq_of_le_mul_two
      . omega
      . rw [← chosenLimit_mul_two]
        omega
    unfold toChosen ofChosen
    rw [Option.elim_some, hbmod, if_pos (by omega), Int.toNat_natCast]

end Code

namespace Stored

theorem formula_keywordText {p : Formula} (h : p.isReadable) : formula p.keywordText = .ok p := by
  unfold formula
  rw [Formula.ofText_of_isReadable h]

theorem label_text {l : Label} (h : l.Proper) : label l.text = .ok l := by
  unfold label
  rw [Label.ofText_text h]

end Stored

@[simp]
theorem Direction.ofForward_isForward (d : Direction) : ofForward d.isForward = d := by
  cases d <;> rfl

@[simp]
theorem Direction.isForward_ofForward (forward : Bool) :
    (ofForward forward).isForward = forward := by
  cases forward <;> rfl

def Step.restored (s : Step) : Step :=
  if s.rule = some .equivalence then { s with side := none } else s

theorem Step.arity_restored (s : Step) : s.restored.arity = s.arity := by
  unfold restored
  split <;> rfl

def Line.restored (line : Line) (stamp : Stamp) : Line :=
  { line with step := line.step.restored, stamp, source := none }

namespace Derivation

def restored (d : Derivation) : Derivation where
  start := d.start
  goal := d.goal
  rows := d.rows.zipIdx.map fun (row, i) => ⟨row.label, row.line.restored ⟨i⟩⟩
  stamp := ⟨d.rows.length⟩

/--
A derivation of which nothing that matters is lost when it is stored.
-/
structure Storable (d : Derivation) : Prop where
  rows_ne_nil : d.rows ≠ []
  start : d.start.isReadable
  goal : d.goal.isReadable
  increasing : d.labels.Pairwise fun a b => a.before b
  proper : ∀ label ∈ d.labels, label.Proper
  readable : ∀ row ∈ d.rows, row.line.formula.isReadable
  fitted : ∀ row ∈ d.rows, row.line.Fitted
  chosen : ∀ row ∈ d.rows, ∀ n, row.line.step.chosen = some n → n < Code.chosenLimit
  cited : ∀ row ∈ d.rows, ∀ label, some label ∈ row.line.arguments → label ∈ d.labels
  inScope : ∀ row ∈ d.rows, row.line.isForward = true →
    ∀ label, some label ∈ row.line.arguments → label.visibleAt row.label = true

namespace LineRecord

variable {line : Line}

theorem toStep_of_equivalence {r : LineRecord} {code : Int} {law : Option Law}
    {lattice : Option Lattice}
    (hrule : Code.toChoice Rule.ofCode? .ruleCode r.rule = .ok (some .equivalence))
    (hcode : r.law = some code) (hlaw : Code.toChoice Law.ofCode? .lawCode code = .ok law)
    (hlattice : Code.toChoice Lattice.ofCode? .versionCode r.version = .ok lattice) :
    r.toStep
      =
    .ok ⟨some .equivalence, .ofForward r.forward, none,
      some ⟨law, r.leftToRight.getD true, lattice⟩, r.chosen.bind Code.toChosen⟩ := by
  unfold toStep
  rw [hrule, hcode]
  simp only [bind, Except.bind, hlaw, hlattice]
  rfl

theorem toStep_of_ne_equivalence {r : LineRecord} {rule : Option Rule} {side : Option Side}
    (hrule : Code.toChoice Rule.ofCode? .ruleCode r.rule = .ok rule)
    (hne : rule ≠ some .equivalence)
    (hside : Code.toChoice Side.ofCode? .versionCode r.version = .ok side) :
    r.toStep = .ok ⟨rule, .ofForward r.forward, side, none, none⟩ := by
  have hstep : Step.ofRule rule (.ofForward r.forward)
      = ⟨rule, .ofForward r.forward, none, none, none⟩ := by
    unfold Step.ofRule Step.setRule
    rw [if_neg hne]
  unfold toStep
  rw [hrule]
  simp only [bind, Except.bind]
  split
  . contradiction
  . rw [hside, hstep]
    rfl

theorem toStep_ofLine (hsettled : line.step.Settled)
    (hchosen : ∀ n, line.step.chosen = some n → n < Code.chosenLimit) :
    (ofLine line).toStep = .ok line.step.restored := by
  have hrule := Code.toChoice_ofChoice Code.faithful_rule .ruleCode line.step.rule
  have hchosen := Code.toChosen_ofChosen hchosen
  unfold Step.restored
  obtain ⟨formula, ⟨rule, direction, side, reading, chosen⟩, fixed, editable, editing, arguments,
    stamp, source⟩ := line
  -- A line has a reading exactly if its rule is an equivalence, and the version is decoded by that.
  cases reading with
  | some reading =>
    obtain rfl : rule = some .equivalence := hsettled.reading.mp rfl
    rw [toStep_of_equivalence hrule rfl
      (Code.toChoice_ofChoice Code.faithful_law .lawCode reading.law)
      (Code.toChoice_ofChoice Code.faithful_lattice .versionCode reading.lattice)]
    simp [ofLine, hchosen]
  | none =>
    have hne : rule ≠ some .equivalence := by simpa using hsettled.reading.mpr
    obtain rfl : chosen = none := hsettled.chosen hne
    rw [toStep_of_ne_equivalence hrule hne
      (Code.toChoice_ofChoice Code.faithful_side .versionCode side)]
    simp [ofLine, hne]

theorem toArguments_map_text (r : LineRecord) {own : Label} {labels : List Label}
    {arguments : List (Option Label)} (hproper : ∀ label ∈ labels, label.Proper)
    (hcited : ∀ label, some label ∈ arguments → label ∈ labels)
    (hscope : r.forward = true → ∀ label, some label ∈ arguments → label.visibleAt own = true) :
    r.toArguments own labels arguments.length (arguments.map fun arg => arg.map Label.text)
      =
    .ok arguments := by
  induction arguments with
  | nil => rfl
  | cons argument arguments ih =>
    have hrest := ih (fun label h => hcited label (List.mem_cons_of_mem _ h))
      (fun hforward label h => hscope hforward label (List.mem_cons_of_mem _ h))
    cases argument with
    | none =>
      rw [List.length_cons, List.map_cons, Option.map_none, toArguments, hrest]
      rfl
    | some label =>
      have hmem := hcited label List.mem_cons_self
      have hkept : (labels.contains label && (!r.forward || label.visibleAt own)) = true := by
        rw [Bool.and_eq_true, List.contains_iff_mem]
        refine ⟨hmem, ?_⟩
        cases hforward : r.forward with
        | false => rfl
        | true => exact hscope hforward label List.mem_cons_self
      rw [List.length_cons, List.map_cons, Option.map_some, toArguments,
        Stored.label_text (hproper label hmem), hrest]
      simp only [bind, Except.bind, hkept]
      rfl

theorem toLine_ofLine {own : Label} {labels : List Label} (hreadable : line.formula.isReadable)
    (hfitted : line.Fitted) (hchosen : ∀ n, line.step.chosen = some n → n < Code.chosenLimit)
    (hproper : ∀ label ∈ labels, label.Proper)
    (hcited : ∀ label, some label ∈ line.arguments → label ∈ labels)
    (hscope : line.isForward = true →
      ∀ label, some label ∈ line.arguments → label.visibleAt own = true) (stamp : Stamp) :
    (ofLine line).toLine own labels stamp = .ok (line.restored stamp) := by
  have hformula := Stored.formula_keywordText hreadable
  have hstep := toStep_ofLine hfitted.settled hchosen
  have harguments := toArguments_map_text (ofLine line) hproper hcited hscope
  rw [hfitted.arity, ← line.step.arity_restored] at harguments
  have hrecord : (ofLine line).formula = line.formula.keywordText := rfl
  have htexts : (ofLine line).arguments = line.arguments.map fun arg => arg.map Label.text := rfl
  unfold toLine
  rw [hrecord, htexts, hformula, hstep]
  simp only [bind, Except.bind, harguments]
  rfl

end LineRecord

namespace Snapshot

theorem disorder?_eq_none_iff {labels : List Label} :
    disorder? labels = none ↔ labels.Pairwise fun a b => a.before b := by
  fun_induction disorder? labels with
  | case1 a b labels hbefore ih =>
    rw [Option.map_eq_none_iff, ih]
    constructor
    . intro h
      rw [List.pairwise_cons, List.forall_mem_cons]
      refine ⟨⟨hbefore, ?_⟩, h⟩
      intro c hc
      exact Label.before_trans hbefore ((List.pairwise_cons.mp h).1 c hc)
    . intro h
      exact h.of_cons
  | case2 a b labels hbefore => simp [hbefore]
  | case3 labels hshort =>
    match labels with
    | [] => simp
    | [a] => simp
    | a :: b :: labels => exact absurd rfl (hshort a b labels)

end Snapshot

variable {d : Derivation} (h : Storable d)
include h

theorem Storable.toRows_eq_ok :
    Snapshot.toRows d.labels (d.rows.map fun row => .ofLine row.line) = .ok d.restored.rows := by
  unfold Snapshot.toRows labels
  rw [List.zip_map', List.zipIdx_map, List.mapM_map]
  apply mapM_eq_pure_map
  rintro ⟨row, i⟩ hrow
  have hmem : row ∈ d.rows := List.fst_mem_of_mem_zipIdx hrow
  have hline := LineRecord.toLine_ofLine (h.readable row hmem) (h.fitted row hmem)
    (h.chosen row hmem) h.proper (h.cited row hmem) (h.inScope row hmem) ⟨i⟩
  exact congrArg (Except.map (Row.mk row.label)) hline

theorem Storable.mapM_label_eq_ok :
    (d.labels.map Label.text).mapM Stored.label = .ok d.labels := by
  have hlabels : d.labels.mapM (Stored.label ∘ Label.text) = .ok (d.labels.map id) := by
    apply mapM_eq_pure_map
    intro label hlabel
    exact Stored.label_text (h.proper label hlabel)
  rw [List.mapM_map, hlabels, List.map_id]

theorem Storable.toDerivation_eq_ok (settings : Settings) :
    (Snapshot.ofDerivation d).toDerivation settings = .ok d.restored := by
  have hempty :
      ((Snapshot.ofDerivation d).lines.isEmpty || (Snapshot.ofDerivation d).labels.isEmpty)
        = false := by
    simp [Snapshot.ofDerivation, h.rows_ne_nil]
  have htake : (Snapshot.ofDerivation d).labels.take (Snapshot.ofDerivation d).lines.length
      = d.labels.map Label.text := by
    unfold Snapshot.ofDerivation labels
    rw [List.take_of_length_le (by simp), List.map_map]
    rfl
  have hstart : Stored.formula ((Snapshot.ofDerivation d).start.getD settings.start)
      = .ok d.start :=
    Stored.formula_keywordText h.start
  have hgoal : Stored.formula ((Snapshot.ofDerivation d).goal.getD settings.goal) = .ok d.goal :=
    Stored.formula_keywordText h.goal
  have hrows : Snapshot.toRows d.labels (Snapshot.ofDerivation d).lines = .ok d.restored.rows :=
    h.toRows_eq_ok
  unfold Snapshot.toDerivation
  rw [hstart, hgoal, hempty, htake, h.mapM_label_eq_ok]
  simp only [bind, Except.bind, Snapshot.disorder?_eq_none_iff.mpr h.increasing, hrows]
  simp [restored]

end Derivation

def Link.restored (link : Link) (stamp : Stamp) : Link :=
  { link with editing := false, stamp, source := none }

def Link.kept (link : Link) : Link :=
  { link with chosen := Code.toChosen (Code.ofChosen link.chosen) }

theorem Link.kept_eq_self {link : Link} (h : ∀ n, link.chosen = some n → n < Code.chosenLimit) :
    link.kept = link := by
  unfold kept
  rw [Code.toChosen_ofChosen h]

namespace Chain

def restored (c : Chain) : Chain where
  start := c.start
  startStamp := ⟨0⟩
  goal := c.goal
  links := c.links.zipIdx.map fun (link, i) => link.restored ⟨i + 1⟩
  stamp := ⟨c.links.length + 1⟩

def kept (c : Chain) : Chain :=
  { c with links := c.links.map Link.kept }

structure Storable (c : Chain) : Prop where
  links_ne_nil : c.links ≠ []
  start : c.start.isReadable
  goal : c.goal.isReadable
  readable : ∀ link ∈ c.links, link.formula.isReadable
  chosen : ∀ link ∈ c.links, ∀ n, link.chosen = some n → n < Code.chosenLimit

theorem LinkRecord.toLink_ofLink {link : Link} (hreadable : link.formula.isReadable)
    (stamp : Stamp) : (ofLink link).toLink stamp = .ok (link.kept.restored stamp) := by
  have hlaw := Code.toChoice_ofChoice Code.faithful_law .lawCode link.reading.law
  have hlattice := Code.toChoice_ofChoice Code.faithful_lattice .versionCode link.reading.lattice
  unfold toLink ofLink
  simp only [Stored.formula_keywordText hreadable, hlaw, hlattice, bind, Except.bind,
    Direction.ofForward_isForward]
  rfl

theorem toChain_ofChain {c : Chain} (hne : c.links ≠ []) (hstart : c.start.isReadable)
    (hgoal : c.goal.isReadable) (hreadable : ∀ link ∈ c.links, link.formula.isReadable)
    (settings : Settings) : (Snapshot.ofChain c).toChain settings = .ok c.kept.restored := by
  have hempty : (Snapshot.ofChain c).links.isEmpty = false := by
    simp [Snapshot.ofChain, hne]
  have hstart : Stored.formula ((Snapshot.ofChain c).start.getD settings.start) = .ok c.start :=
    Stored.formula_keywordText hstart
  have hgoal : Stored.formula ((Snapshot.ofChain c).goal.getD settings.goal) = .ok c.goal :=
    Stored.formula_keywordText hgoal
  have hlinks : ((Snapshot.ofChain c).links.zipIdx.mapM fun a => a.1.toLink ⟨a.2 + 1⟩)
      = .ok c.kept.restored.links := by
    unfold Snapshot.ofChain restored kept
    rw [List.zipIdx_map, List.zipIdx_map, List.mapM_map, List.map_map]
    apply mapM_eq_pure_map
    rintro ⟨link, i⟩ hlink
    have hmem : link ∈ c.links := List.fst_mem_of_mem_zipIdx hlink
    exact LinkRecord.toLink_ofLink (hreadable link hmem) ⟨i + 1⟩
  unfold Snapshot.toChain
  rw [hstart, hgoal, hempty]
  simp only [bind, Except.bind, hlinks]
  simp [restored, kept]

theorem kept_eq_self {c : Chain}
    (h : ∀ link ∈ c.links, ∀ n, link.chosen = some n → n < Code.chosenLimit) : c.kept = c := by
  have hlinks : c.links.map Link.kept = c.links := by
    rw [List.map_congr_left (g := id), List.map_id]
    intro link hlink
    exact Link.kept_eq_self (h link hlink)
  unfold kept
  rw [hlinks]

theorem Storable.toChain_eq_ok {c : Chain} (h : Storable c) (settings : Settings) :
    (Snapshot.ofChain c).toChain settings = .ok c.restored := by
  rw [toChain_ofChain h.links_ne_nil h.start h.goal h.readable, kept_eq_self h.chosen]

end Chain

/--
A stored proof is read back whatever the settings, and but for stamps, sources and what is shown in
full, it is the proof that was stored.
-/
theorem toDerivation_and_toChain_eq_restored :
    (∀ (d : Derivation) (settings : Settings), d.Storable →
      (Derivation.Snapshot.ofDerivation d).toDerivation settings = .ok d.restored)
      ∧
    (∀ (c : Chain) (settings : Settings), c.Storable →
      (Chain.Snapshot.ofChain c).toChain settings = .ok c.restored) := by
  constructor
  . intro d settings h
    exact h.toDerivation_eq_ok settings
  . intro c settings h
    exact h.toChain_eq_ok settings

def filedDerivation : Derivation where
  start := .conj (.var "P") (.const true)
  goal := .imp (.var "P") (.var "P")
  rows :=
    [⟨⟨[1]⟩, .new (.conj (.var "P") (.const true)) ⟨0⟩ .assumption true false⟩,
      ⟨⟨[2, 1]⟩, .new (.var "P") ⟨5⟩ .assumption false false⟩,
      ⟨⟨[2, 2]⟩, ⟨.var "P",
        ⟨some .equivalence, .forward, some .left, some (.ofLaw .identity), some 0⟩,
        false, true, true, [some ⟨[1]⟩], ⟨6⟩, some ⟨6⟩⟩⟩,
      ⟨⟨[2]⟩, ⟨.imp (.var "P") (.var "P"), .ofRule (some .directProof) .backward, true, true, false,
        [some ⟨[2, 1]⟩, some ⟨[2, 2]⟩], ⟨1⟩, none⟩⟩]
  stamp := ⟨7⟩

def filedChain : Chain where
  start := .conj (.var "Rain2") (.const true)
  startStamp := ⟨0⟩
  goal := .var "Rain2"
  links :=
    [⟨.conj (.const true) (.var "Rain2"), .ofLaw .commutativity, none, .forward, true, ⟨4⟩,
        some ⟨0⟩⟩,
      ⟨.var "Rain2", .reversed .identity (some .and), some 0, .backward, false, ⟨1⟩, none⟩]
  stamp := ⟨5⟩

theorem filedDerivation_storable : filedDerivation.Storable where
  rows_ne_nil := by simp [filedDerivation]
  start := by decide +kernel
  goal := by decide +kernel
  increasing := by decide +kernel
  proper := by
    simp [filedDerivation, Derivation.labels, Label.Within, Label.maxPart]
  readable := by decide +kernel
  fitted := by
    simp only [filedDerivation, List.forall_mem_cons]
    refine ⟨Line.fitted_new .., Line.fitted_new .., ⟨rfl, ?_, ?_⟩, ⟨rfl, ?_, ?_⟩, by simp⟩
    . decide
    . decide
    . decide
    . decide
  chosen := by
    simp [filedDerivation, Line.new, Step.assumption, Step.ofRule, Step.setRule, Code.chosenLimit]
  cited := by
    simp [filedDerivation, Derivation.labels, Line.new]
  inScope := by
    simp [filedDerivation, Line.new, Line.isForward, Step.ofRule, Step.setRule, Direction.isForward]

theorem filedChain_storable : filedChain.Storable where
  links_ne_nil := by simp [filedChain]
  start := by decide +kernel
  goal := by decide +kernel
  readable := by decide +kernel
  chosen := by simp [filedChain, Code.chosenLimit]

theorem filed_eq_restored :
    filedDerivation.Storable ∧ filedChain.Storable
      ∧ (Derivation.Snapshot.ofDerivation filedDerivation).toDerivation .standard
        = .ok filedDerivation.restored
      ∧ (Chain.Snapshot.ofChain filedChain).toChain .standard = .ok filedChain.restored := by
  refine ⟨filedDerivation_storable, filedChain_storable, ?_, ?_⟩
  . exact toDerivation_and_toChain_eq_restored.1 _ _ filedDerivation_storable
  . exact toDerivation_and_toChain_eq_restored.2 _ _ filedChain_storable

end ProofDesk
