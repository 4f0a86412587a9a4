import ProofDesk.Proofs.Snapshot

/-!
This module contains what can be relied on once a snapshot has been accepted, whoever wrote it: the
labels are in order, the lines have the shape that their rules ask for, and citations that could not
be followed are gone. To store the result and read it back changes nothing any more.
-/

namespace ProofDesk

namespace Stored

theorem isReadable_of_formula_eq_ok {text : String} {p : Formula} (h : formula text = .ok p) :
    p.isReadable := by
  unfold formula at h
  split at h
  . next p' hp' =>
    rw [← Except.ok.inj h]
    exact Formula.isReadable_of_ofText_eq_ok hp'
  . simp at h

theorem proper_of_label_eq_ok {text : String} {l : Label} (h : label text = .ok l) :
    l.Proper := by
  unfold label at h
  split at h
  . next l' hl' =>
    rw [← Except.ok.inj h]
    exact Label.proper_of_ofText_eq_ok hl'
  . simp at h

end Stored

theorem Code.lt_chosenLimit_of_toChosen_eq_some {number : Int} {n : Nat}
    (hnumber : number < Json.halfWordSize) (h : toChosen number = some n) : n < chosenLimit := by
  have hlimit : Json.halfWordSize = chosenLimit := rfl
  unfold toChosen at h
  split at h
  . have := Option.some.inj h
    omega
  . simp at h

theorem Step.chosen_ofRule (rule : Option Rule) (direction : Direction) :
    (ofRule rule direction).chosen = none := by
  unfold ofRule setRule
  split <;> rfl

namespace Json

theorem lt_of_int?_eq_some {json : Json} {n : Int} (h : int? json = some n) : n < halfWordSize := by
  unfold int? at h
  split at h
  . simp only [Option.ite_none_right_eq_some, Option.some.injEq] at h
    obtain ⟨hlt, rfl⟩ := h
    exact hlt
  . simp at h

theorem exists_of_defaulted?_eq_some {α : Type} {decode : Json → Option α} {default a : α}
    {field : Option Json} (h : defaulted? decode default field = some a) :
    a = default ∨ ∃ json, decode json = some a := by
  unfold defaulted? at h
  split at h
  . exact .inl (Option.some.inj h).symm
  . next json => exact .inr ⟨json, h⟩

theorem decode_of_nullable?_eq_some {α : Type} {decode : Json → Option α} {json : Json} {a : α}
    (h : nullable? decode json = some (some a)) : decode json = some a := by
  unfold nullable? at h
  split at h
  . simp at h
  . simpa using h

theorem exists_of_list?_eq_some {α : Type} {decode : Json → Option α} {json : Json} {as : List α}
    (h : list? decode json = some as) : ∀ a ∈ as, ∃ item, decode item = some a := by
  unfold list? at h
  split at h
  . intro a ha
    obtain ⟨item, -, hitem⟩ := exists_left_of_forall₂ (forall₂_of_mapM_eq_some h) ha
    exact ⟨item, hitem⟩
  . simp at h

end Json

namespace Derivation

namespace LineRecord

def InRange (r : LineRecord) : Prop :=
  ∀ number, r.chosen = some number → number < Json.halfWordSize

theorem inRange_of_ofJson?_eq_some {json : Json} {r : LineRecord} (h : ofJson? json = some r) :
    r.InRange := by
  unfold ofJson? at h
  simp only [bind, Option.bind_eq_some_iff] at h
  obtain ⟨field, -, formula, -, rule, -, forward, -, version, -, fixed, -, editable, -, editing, -,
    arguments, -, law, -, leftToRight, -, chosen, hchosen, h⟩ := h
  obtain rfl := Option.some.inj h
  intro number hnumber
  obtain rfl : chosen = some number := hnumber
  rcases Json.exists_of_defaulted?_eq_some hchosen with hnone | ⟨json, hjson⟩
  . simp at hnone
  . exact Json.lt_of_int?_eq_some (Json.decode_of_nullable?_eq_some hjson)

variable {r : LineRecord} {own : Label} {labels : List Label}

theorem direction_of_toStep_eq_ok {step : Step} (h : r.toStep = .ok step) :
    step.direction = .ofForward r.forward := by
  obtain ⟨law, lattice, rfl⟩ | ⟨rule, side, rfl⟩ := exists_of_toStep_eq_ok h
  . apply Step.direction_setRule
  . apply Step.direction_setRule

theorem lt_chosenLimit_of_toStep_eq_ok {step : Step} (hr : r.InRange) (h : r.toStep = .ok step) :
    ∀ n, step.chosen = some n → n < Code.chosenLimit := by
  intro n hn
  obtain ⟨law, lattice, rfl⟩ | ⟨rule, side, rfl⟩ := exists_of_toStep_eq_ok h
  . obtain ⟨number, hnumber, hn⟩ := Option.bind_eq_some_iff.mp hn
    exact Code.lt_chosenLimit_of_toChosen_eq_some (hr number hnumber) hn
  . simp [Step.chosen_ofRule] at hn

theorem mem_and_visibleAt_of_toArguments_eq_ok {n : Nat} {texts : List (Option String)}
    {arguments : List (Option Label)} (h : r.toArguments own labels n texts = .ok arguments)
    {label : Label} (hlabel : some label ∈ arguments) :
    label ∈ labels ∧ (r.forward = true → label.visibleAt own = true) := by
  fun_induction toArguments r own labels n texts generalizing arguments with
  | case1 => simp_all
  | case2 n =>
    rw [← Except.ok.inj h] at hlabel
    simp at hlabel
  | case3 n texts ih =>
    obtain ⟨rest, hrest, h⟩ := exists_of_bind_eq_ok h
    simp only [pure, Except.pure, Except.ok.injEq] at h
    rw [← h, List.mem_cons] at hlabel
    simp only [reduceCtorEq, false_or] at hlabel
    exact ih hrest hlabel
  | case4 n text texts ih =>
    obtain ⟨cited, -, h⟩ := exists_of_bind_eq_ok h
    obtain ⟨rest, hrest, h⟩ := exists_of_bind_eq_ok h
    simp only [pure, Except.pure, Except.ok.injEq] at h
    rw [← h, List.mem_cons] at hlabel
    cases hlabel with
    | inl hkept =>
      simp only [Option.some_eq_ite_none_right, Option.some.injEq] at hkept
      obtain ⟨hkept, rfl⟩ := hkept
      simp only [Bool.and_eq_true, List.contains_iff_mem, Bool.or_eq_true, Bool.not_eq_true']
        at hkept
      refine ⟨hkept.1, ?_⟩
      intro hforward
      simpa [hforward] using hkept.2
    | inr hlabel => exact ih hrest hlabel

section Line

variable {stamp : Stamp} {line : Line} (h : r.toLine own labels stamp = .ok line)
include h

theorem isReadable_of_toLine_eq_ok : line.formula.isReadable := by
  obtain ⟨formula, step, arguments, hformula, -, -, rfl⟩ := exists_of_toLine_eq_ok h
  exact Stored.isReadable_of_formula_eq_ok hformula

theorem lt_chosenLimit_of_toLine_eq_ok (hr : r.InRange) :
    ∀ n, line.step.chosen = some n → n < Code.chosenLimit := by
  obtain ⟨formula, step, arguments, -, hstep, -, rfl⟩ := exists_of_toLine_eq_ok h
  exact lt_chosenLimit_of_toStep_eq_ok hr hstep

theorem mem_and_visibleAt_of_toLine_eq_ok {label : Label} (hlabel : some label ∈ line.arguments) :
    label ∈ labels ∧ (line.isForward = true → label.visibleAt own = true) := by
  obtain ⟨formula, step, arguments, -, hstep, harguments, rfl⟩ := exists_of_toLine_eq_ok h
  obtain ⟨hmem, hvisible⟩ := mem_and_visibleAt_of_toArguments_eq_ok harguments hlabel
  refine ⟨hmem, ?_⟩
  intro hforward
  apply hvisible
  have hforward : step.direction.isForward = true := hforward
  rwa [direction_of_toStep_eq_ok hstep, Direction.isForward_ofForward] at hforward

end Line

end LineRecord

namespace Snapshot

def InRange (s : Snapshot) : Prop :=
  ∀ r ∈ s.lines, r.InRange

theorem inRange_of_ofJson?_eq_some {json : Json} {s : Snapshot} (h : ofJson? json = some s) :
    s.InRange := by
  unfold ofJson? at h
  simp only [bind, Option.bind_eq_some_iff] at h
  obtain ⟨field, -, start, -, goal, -, lines, hlines, labels, -, h⟩ := h
  obtain rfl := Option.some.inj h
  rcases Json.exists_of_defaulted?_eq_some hlines with rfl | ⟨items, hitems⟩
  . simp [InRange]
  . intro r hr
    obtain ⟨item, hitem⟩ := Json.exists_of_list?_eq_some hitems r hr
    exact LineRecord.inRange_of_ofJson?_eq_some hitem

theorem inRange_of_ofText_eq_ok {text : String} {s : Snapshot} (h : ofText text = .ok s) :
    s.InRange := by
  unfold ofText at h
  split at h
  . rw [← Except.ok.inj h]
    simp [InRange, empty]
  . split at h
    . next s' hs' =>
      obtain ⟨json, -, hjson⟩ := Option.bind_eq_some_iff.mp hs'
      rw [← Except.ok.inj h]
      exact inRange_of_ofJson?_eq_some hjson
    . simp at h

section Rows

variable {labels : List Label} {records : List LineRecord} {rows : List Row}
  (h : toRows labels records = .ok rows)
include h

theorem labels_of_toRows_eq_ok (hlen : labels.length ≤ records.length) :
    rows.map Row.label = labels := by
  have hrows := (forall₂_of_toRows_eq_ok h).imp fun _ _ hrow => hrow.1.symm
  have heq : (labels.zip records).zipIdx.map (fun a => a.1.1) = rows.map Row.label := by
    rw [← List.forall₂_eq_eq_eq, List.forall₂_map_left_iff, List.forall₂_map_right_iff]
    exact hrows
  calc rows.map Row.label
    _ = ((labels.zip records).zipIdx.map Prod.fst).map Prod.fst := by
      rw [← heq, List.map_map]
      rfl
    _ = labels := by
      rw [List.zipIdx_map_fst, List.map_fst_zip hlen]

theorem exists_toLine_of_mem_rows {row : Row} (hrow : row ∈ rows) :
    ∃ r ∈ records, ∃ stamp, r.toLine row.label labels stamp = .ok row.line := by
  obtain ⟨⟨⟨label, r⟩, i⟩, hmem, rfl, hline⟩ :=
    exists_left_of_forall₂ (forall₂_of_toRows_eq_ok h) hrow
  have hmem := List.fst_mem_of_mem_zipIdx hmem
  exact ⟨r, (List.of_mem_zip hmem).2, ⟨i⟩, hline⟩

end Rows

end Snapshot

theorem storable_begin {start goal : Formula} (hstart : start.isReadable) (hgoal : goal.isReadable)
    (direction : Direction) : (begin start goal direction).Storable where
  rows_ne_nil := by simp [begin]
  start := hstart
  goal := hgoal
  increasing := by
    simp [labels, begin]
  proper := by
    simp [labels, begin, Label.Within, Label.maxPart]
  readable := by
    simp [begin, Line.new, hstart, hgoal]
  fitted := (Initial.fresh start goal direction).fitted
  chosen := by
    simp [begin, Line.new, Step.assumption, Step.unknown, Step.ofRule, Step.setRule]
  cited := by
    intro row hrow label hlabel
    exact absurd hlabel (not_mem_arguments_begin hrow label)
  inScope := by
    intro row hrow hforward label hlabel
    exact absurd hlabel (not_mem_arguments_begin hrow label)

theorem storable_of_toDerivation_eq_ok {s : Snapshot} {settings : Settings} {d : Derivation}
    (hs : s.InRange) (h : s.toDerivation settings = .ok d) : d.Storable := by
  have hfitted := (Initial.stored s settings d h).fitted
  obtain ⟨start, goal, hstart, hgoal, hd⟩ := Snapshot.exists_of_toDerivation_eq_ok h
  have hstart := Stored.isReadable_of_formula_eq_ok hstart
  have hgoal := Stored.isReadable_of_formula_eq_ok hgoal
  rcases hd with rfl | ⟨labels, rows, hlines, htexts, hread, horder, hrows, rfl⟩
  . exact storable_begin hstart hgoal settings.goalDirection
  . have hread := forall₂_of_mapM_eq_ok hread
    have hlen : labels.length = min s.lines.length s.labels.length := by
      rw [← hread.length_eq, List.length_take]
    -- Labels beyond the last line have been dropped, so every label that is left has its line.
    have hlabels : rows.map Row.label = labels :=
      Snapshot.labels_of_toRows_eq_ok hrows (by omega)
    have hcited : ∀ row ∈ rows, ∀ label, some label ∈ row.line.arguments →
        label ∈ labels ∧ (row.line.isForward = true → label.visibleAt row.label = true) := by
      intro row hrow label hlabel
      obtain ⟨r, -, stamp, hline⟩ := Snapshot.exists_toLine_of_mem_rows hrows hrow
      exact LineRecord.mem_and_visibleAt_of_toLine_eq_ok hline hlabel
    constructor
    case start => exact hstart
    case goal => exact hgoal
    case fitted => exact hfitted
    case rows_ne_nil =>
      rintro rfl
      have hlines := List.length_pos_iff.mpr hlines
      have htexts := List.length_pos_iff.mpr htexts
      rw [← hlabels, List.map_nil, List.length_nil] at hlen
      omega
    case increasing =>
      rw [Derivation.labels, hlabels]
      exact Snapshot.disorder?_eq_none_iff.mp horder
    case proper =>
      rw [Derivation.labels, hlabels]
      intro label hlabel
      obtain ⟨text, -, htext⟩ := exists_left_of_forall₂ hread hlabel
      exact Stored.proper_of_label_eq_ok htext
    case readable =>
      intro row hrow
      obtain ⟨r, -, stamp, hline⟩ := Snapshot.exists_toLine_of_mem_rows hrows hrow
      exact LineRecord.isReadable_of_toLine_eq_ok hline
    case chosen =>
      intro row hrow
      obtain ⟨r, hr, stamp, hline⟩ := Snapshot.exists_toLine_of_mem_rows hrows hrow
      exact LineRecord.lt_chosenLimit_of_toLine_eq_ok hline (hs r hr)
    case cited =>
      intro row hrow label hlabel
      rw [Derivation.labels, hlabels]
      exact (hcited row hrow label hlabel).1
    case inScope =>
      intro row hrow hforward label hlabel
      exact (hcited row hrow label hlabel).2 hforward

theorem LineRecord.ofLine_restored {line : Line} (h : line.step.Settled) (stamp : Stamp) :
    ofLine (line.restored stamp) = ofLine line := by
  -- The side of an equivalence step, which gets lost, is not stored in the first place.
  unfold Line.restored Step.restored
  split
  . next hrule =>
    obtain ⟨reading, hreading⟩ := Option.isSome_iff_exists.mp (h.reading.mpr hrule)
    simp [ofLine, hreading]
  . rfl

theorem map_rows_restored {α : Type} {d : Derivation} {f : Row → α}
    (h : ∀ row ∈ d.rows, ∀ stamp, f ⟨row.label, row.line.restored stamp⟩ = f row) :
    d.restored.rows.map f = d.rows.map f := by
  calc d.restored.rows.map f
    _ = d.rows.zipIdx.map (f ∘ Prod.fst) := by
      rw [restored, List.map_map]
      apply List.map_congr_left
      rintro ⟨row, i⟩ hrow
      exact h row (List.fst_mem_of_mem_zipIdx hrow) ⟨i⟩
    _ = d.rows.map f := by
      rw [← List.map_map, List.zipIdx_map_fst]

theorem ofDerivation_restored {d : Derivation} (h : ∀ row ∈ d.rows, row.line.Fitted) :
    Snapshot.ofDerivation d.restored = Snapshot.ofDerivation d := by
  have hlines : d.restored.rows.map (fun row => LineRecord.ofLine row.line)
      = d.rows.map fun row => LineRecord.ofLine row.line := by
    apply map_rows_restored
    intro row hrow stamp
    exact LineRecord.ofLine_restored (h row hrow).settled stamp
  have hlabels : d.restored.rows.map (fun row => row.label.text)
      = d.rows.map fun row => row.label.text := by
    apply map_rows_restored
    intro row hrow stamp
    rfl
  unfold Snapshot.ofDerivation
  rw [hlines, hlabels]
  rfl

/--
What can be relied on in a derivation that has been read from a snapshot. Other than after a run of
the editor, backward lines may name any line as a goal, later ones included.
-/
structure Sanitised (d : Derivation) : Prop where
  rows_ne_nil : d.rows ≠ []
  length_labels : d.labels.length = d.lines.length
  increasing : d.labels.Pairwise fun a b => a.before b
  positive : ∀ label ∈ d.labels, label.parts ≠ [] ∧ ∀ n ∈ label.parts, 1 ≤ n
  arity : ∀ row ∈ d.rows, row.line.arguments.length = row.line.step.arity
  reading : ∀ row ∈ d.rows,
    row.line.step.reading.isSome = true ↔ row.line.step.rule = some .equivalence
  cited : ∀ row ∈ d.rows, ∀ label, some label ∈ row.line.arguments → label ∈ d.labels
  inScope : ∀ row ∈ d.rows, row.line.isForward = true →
    ∀ label, some label ∈ row.line.arguments → label.visibleAt row.label = true
  earlier : ∀ (i : Nat) (row : Row), d.rows[i]? = some row → row.line.isForward = true →
    ∀ label, some label ∈ row.line.arguments → label ∈ d.labels.take i

theorem Storable.sanitised {d : Derivation} (h : Storable d) : Sanitised d where
  rows_ne_nil := h.rows_ne_nil
  length_labels := by simp [labels, lines]
  increasing := h.increasing
  positive := by
    intro label hlabel
    obtain ⟨hparts, hbounds⟩ := h.proper label hlabel
    exact ⟨hparts, fun n hn => (hbounds n hn).1⟩
  arity row hrow := (h.fitted row hrow).arity
  reading row hrow := (h.fitted row hrow).settled.reading
  cited := h.cited
  inScope := h.inScope
  earlier := by
    intro i row hi hforward label hlabel
    have hrow := List.mem_of_getElem? hi
    obtain ⟨r, hr, rfl⟩ := List.mem_map.mp (h.cited row hrow label hlabel)
    have hvisible := h.inScope row hrow hforward r.label hlabel
    apply (ordered_iff_labels.mpr h.increasing).label_mem_take_of_before hr hi
    exact Label.before_of_visibleAt hvisible

/--
Whatever an accepted snapshot holds, its derivation can be relied on, and if it is stored and read
once more, it is stored as before. The range is no condition on what is read from a text.
-/
theorem sanitised_of_toDerivation :
    (∀ (s : Snapshot) (settings : Settings) (d : Derivation), s.InRange →
      s.toDerivation settings = .ok d →
        d.Sanitised
          ∧ ∃ q, (Snapshot.ofDerivation d).toDerivation settings = .ok q
            ∧ Snapshot.ofDerivation q = Snapshot.ofDerivation d)
      ∧
    (∀ (text : String) (s : Snapshot), Snapshot.ofText text = .ok s → s.InRange) := by
  constructor
  . intro s settings d hs h
    have hstorable := storable_of_toDerivation_eq_ok hs h
    refine ⟨hstorable.sanitised, d.restored, ?_, ?_⟩
    . exact hstorable.toDerivation_eq_ok settings
    . exact ofDerivation_restored hstorable.fitted
  . intro text s h
    exact Snapshot.inRange_of_ofText_eq_ok h

def straySnapshot : Snapshot where
  start := some "P and Q"
  goal := none
  lines :=
    [⟨"P and Q", 8, false, 0, true, false, false, [some "1"], some 3, some false, some 7⟩,
      ⟨"P and Q", 7, true, 2, false, true, false, [some "1", some "2"], none, none, none⟩,
      ⟨"Q", 2, true, 0, false, true, true, [some "2.2", some "7"], none, none, none⟩,
      ⟨"P implies Q", 1, false, 0, true, true, false, [some "2.1", some "03"], none, none, none⟩,
      ⟨"R", 7, true, 1, true, true, false, [some " 2"], some 5, none,
        some 9223372036854775807⟩]
  labels := [" 1", "+2.1", "2 . 02", "2", "3", "x"]

theorem straySnapshot_sanitised :
    ∃ d, straySnapshot.InRange ∧ straySnapshot.toDerivation .standard = .ok d
      ∧ d.labels = [⟨[1]⟩, ⟨[2, 1]⟩, ⟨[2, 2]⟩, ⟨[2]⟩, ⟨[3]⟩]
      ∧ d.lines.map Line.arguments
        = [[], [some ⟨[1]⟩], [none, none], [some ⟨[2, 1]⟩, some ⟨[3]⟩], [some ⟨[2]⟩]]
      ∧ d.Sanitised
      ∧ ∃ q, (Snapshot.ofDerivation d).toDerivation .standard = .ok q
        ∧ Snapshot.ofDerivation q = Snapshot.ofDerivation d := by
  have hrange : straySnapshot.InRange := by
    simp [Snapshot.InRange, LineRecord.InRange, straySnapshot, Json.halfWordSize]
  have hread : (straySnapshot.toDerivation .standard).toOption.map
      (fun d => (d.labels, d.lines.map Line.arguments))
      = some ([⟨[1]⟩, ⟨[2, 1]⟩, ⟨[2, 2]⟩, ⟨[2]⟩, ⟨[3]⟩],
        [[], [some ⟨[1]⟩], [none, none], [some ⟨[2, 1]⟩, some ⟨[3]⟩], [some ⟨[2]⟩]]) := by
    decide +kernel
  obtain ⟨d, hd, hread⟩ := exists_of_map_toOption_eq_some hread
  obtain ⟨hlabels, harguments⟩ := Prod.mk.inj hread
  refine ⟨d, hrange, hd, hlabels, harguments, ?_⟩
  exact sanitised_of_toDerivation.1 straySnapshot .standard d hrange hd

end Derivation

end ProofDesk
