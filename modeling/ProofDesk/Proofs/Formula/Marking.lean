import Mathlib.Data.List.Forall2
import ProofDesk.Formula.Marked
import ProofDesk.Proofs.Editing
import ProofDesk.Proofs.Formula.Positions

/-!
This module contains what the spans of a marked formula cover. A subformula is displayed by the same
text wherever it stands, so its span is found by the length of the text before it; the parentheses
around it belong to that text and to what follows.
-/

namespace ProofDesk

namespace Formula

def postOrder : Formula → List Position
  | const _ => [[]]
  | var _ => [[]]
  | neg inner => inner.postOrder.map (0 :: ·) ++ [[]]
  | bin _ left right => left.postOrder.map (0 :: ·) ++ right.postOrder.map (1 :: ·) ++ [[]]

theorem postOrder_perm_positions (p : Formula) : p.postOrder.Perm p.positions := by
  induction p with
  | const value => exact .refl _
  | var name => exact .refl _
  | neg inner ih =>
    rw [postOrder, positions]
    exact (List.perm_append_singleton _ _).trans ((ih.map _).cons _)
  | bin c left right ihl ihr =>
    rw [postOrder, positions]
    exact (List.perm_append_singleton _ _).trans (((ihl.map _).append (ihr.map _)).cons _)

def answered (p : Formula) (asked : List (Position × Direction)) : List (Position × Direction) :=
  p.postOrder.flatMap fun pos => asked.filter (·.1 = pos)

section Text

def opening (wrap : Bool) : List Char :=
  if wrap then ['('] else []

def closing (wrap : Bool) : List Char :=
  if wrap then [')'] else []

def leading (c : Connective) (left : Formula) : List Char :=
  parens (wraps c .left left) (left.write .symbols) ++ ' ' :: Style.symbols.connective c ++ [' ']

theorem parens_eq (wrap : Bool) (text : List Char) :
    parens wrap text = opening wrap ++ text ++ closing wrap := by
  cases wrap <;> simp [parens, opening, closing]

theorem byteLength_opening (wrap : Bool) :
    byteLength (opening wrap) = spansFrom.paren wrap := by
  cases wrap <;> rfl

theorem write_bin (c : Connective) (left right : Formula) :
    (bin c left right).write .symbols
      =
    leading c left ++ parens (wraps c .right right) (right.write .symbols) := by
  simp [write, leading]

/--
The formula `sub` stands at a position of a formula, and in the display form of that formula the
text `before` comes before it.
-/
inductive DisplayedAfter (sub : Formula) : Formula → Position → List Char → Prop where
  | root : DisplayedAfter sub sub [] []
  | neg {inner : Formula} {pos : Position} {before : List Char}
      (h : DisplayedAfter sub inner pos before) :
      DisplayedAfter sub (.neg inner) (0 :: pos)
        (Style.symbols.negation ++ opening (wrapsNegated inner) ++ before)
  | left {c : Connective} {left right : Formula} {pos : Position} {before : List Char}
      (h : DisplayedAfter sub left pos before) :
      DisplayedAfter sub (.bin c left right) (0 :: pos) (opening (wraps c .left left) ++ before)
  | right {c : Connective} {left right : Formula} {pos : Position} {before : List Char}
      (h : DisplayedAfter sub right pos before) :
      DisplayedAfter sub (.bin c left right) (1 :: pos)
        (leading c left ++ opening (wraps c .right right) ++ before)

variable {sub p : Formula} {pos : Position} {before : List Char}

theorem DisplayedAfter.occurs (h : DisplayedAfter sub p pos before) : Occurs sub p pos := by
  induction h with
  | root => exact .root
  | neg _ ih => exact .neg ih
  | left _ ih => exact .left ih
  | right _ ih => exact .right ih

theorem DisplayedAfter.exists_write_eq (h : DisplayedAfter sub p pos before) :
    ∃ after, p.write .symbols = before ++ sub.write .symbols ++ after := by
  induction h with
  | root => exact ⟨[], by simp⟩
  | @neg inner _ _ _ ih =>
    obtain ⟨after, ih⟩ := ih
    refine ⟨after ++ closing (wrapsNegated inner), ?_⟩
    simp [write, parens_eq, ih]
  | @left c left right _ _ _ ih =>
    obtain ⟨after, ih⟩ := ih
    refine ⟨after ++ closing (wraps c .left left) ++ ' ' :: Style.symbols.connective c
      ++ ' ' :: parens (wraps c .right right) (right.write .symbols), ?_⟩
    simp [write, parens_eq (wraps c .left left), ih]
  | @right c _ right _ _ _ ih =>
    obtain ⟨after, ih⟩ := ih
    refine ⟨after ++ closing (wraps c .right right), ?_⟩
    simp [write_bin, parens_eq, ih]

end Text

section Spans

variable {asked : List (Position × Direction)} {here : Position} {start : Nat} {p : Formula}

def Answers (p : Formula) (here : Position) (start : Nat) (ask : Position × Direction)
    (span : Span) : Prop :=
  ∃ pos sub before, ask.1 = here ++ pos ∧ DisplayedAfter sub p pos before
    ∧ span.start = start + byteLength before
    ∧ span.stop = span.start + byteLength (sub.write .symbols) ∧ span.kind = ask.2

theorem Answers.below {q : Formula} {i start' : Nat} {before : List Char}
    {ask : Position × Direction} {span : Span} (h : Answers q (here ++ [i]) start' ask span)
    (hstart : start' = start + byteLength before)
    (hdisplayed : ∀ sub pos rest, DisplayedAfter sub q pos rest →
      DisplayedAfter sub p (i :: pos) (before ++ rest)) :
    Answers p here start ask span := by
  obtain ⟨pos, sub, rest, hpos, hsub, hspan, hstop⟩ := h
  refine ⟨i :: pos, sub, before ++ rest, by simpa using hpos, hdisplayed sub pos rest hsub, ?_,
    hstop⟩
  rw [hspan, hstart, byteLength_append, Nat.add_assoc]

theorem forall₂_answers_own (asked : List (Position × Direction)) (here : Position) (start : Nat)
    (p : Formula) :
    List.Forall₂ (Answers p here start) (asked.filter (·.1 = here))
      (spansFrom.own asked here start p) := by
  induction asked with
  | nil => exact .nil
  | cons ask asked ih =>
    unfold spansFrom.own at ih ⊢
    by_cases h : ask.1 = here
    . simp only [List.filter_cons, h, decide_true, if_true, List.filterMap_cons]
      exact .cons ⟨[], p, [], by simpa using h, .root, rfl, rfl, rfl⟩ ih
    . simp only [List.filter_cons, h, decide_false, if_false, List.filterMap_cons]
      exact ih

theorem spansFrom_neg (asked : List (Position × Direction)) (here : Position) (start : Nat)
    (inner : Formula) :
    (neg inner).spansFrom asked here start
      =
    inner.spansFrom asked (here ++ [0])
        (start + byteLength (Style.symbols.negation ++ opening (wrapsNegated inner)))
      ++ spansFrom.own asked here start (neg inner) := by
  rw [byteLength_append, byteLength_opening, ← Nat.add_assoc]
  rfl

theorem spansFrom_bin (asked : List (Position × Direction)) (here : Position) (start : Nat)
    (c : Connective) (left right : Formula) :
    (bin c left right).spansFrom asked here start
      =
    left.spansFrom asked (here ++ [0]) (start + byteLength (opening (wraps c .left left)))
      ++ right.spansFrom asked (here ++ [1])
        (start + byteLength (leading c left ++ opening (wraps c .right right)))
      ++ spansFrom.own asked here start (bin c left right) := by
  rw [byteLength_append, byteLength_opening, byteLength_opening, ← Nat.add_assoc]
  rfl

theorem flatMap_below (asked : List (Position × Direction)) (here : Position) (i : Nat)
    (poss : List Position) :
    ((poss.map (i :: ·)).flatMap fun pos => asked.filter (·.1 = here ++ pos))
      =
    poss.flatMap fun pos => asked.filter (·.1 = here ++ [i] ++ pos) := by
  simp [List.flatMap_map]

theorem flatMap_root (asked : List (Position × Direction)) (here : Position) :
    ([[]].flatMap fun pos => asked.filter (·.1 = here ++ pos)) = asked.filter (·.1 = here) := by
  simp

theorem forall₂_answers (p : Formula) (asked : List (Position × Direction)) (here : Position)
    (start : Nat) :
    List.Forall₂ (Answers p here start)
      (p.postOrder.flatMap fun pos => asked.filter (·.1 = here ++ pos))
      (p.spansFrom asked here start) := by
  induction p generalizing here start with
  | const value =>
    rw [postOrder, flatMap_root]
    exact forall₂_answers_own ..
  | var name =>
    rw [postOrder, flatMap_root]
    exact forall₂_answers_own ..
  | neg inner ih =>
    rw [postOrder, List.flatMap_append, flatMap_below, flatMap_root, spansFrom_neg]
    refine List.rel_append ((ih ..).imp ?_) (forall₂_answers_own ..)
    intro ask span h
    exact h.below rfl fun sub pos rest hsub => .neg hsub
  | bin c left right ihl ihr =>
    rw [postOrder, List.flatMap_append, List.flatMap_append, flatMap_below, flatMap_below,
      flatMap_root, spansFrom_bin]
    refine List.rel_append (List.rel_append ((ihl ..).imp ?_) ((ihr ..).imp ?_))
      (forall₂_answers_own ..)
    . intro ask span h
      exact h.below rfl fun sub pos rest hsub => .left hsub
    . intro ask span h
      exact h.below rfl fun sub pos rest hsub => .right hsub

end Spans

section Nested

def InBytes (start stop : Nat) (span : Span) : Prop :=
  start ≤ span.start ∧ span.start ≤ span.stop ∧ span.stop ≤ stop

def Laminar (a b : Span) : Prop :=
  (b.start ≤ a.start ∧ a.stop ≤ b.stop) ∨ (a.start ≤ b.start ∧ b.stop ≤ a.stop)
    ∨ a.stop ≤ b.start ∨ b.stop ≤ a.start

variable {asked : List (Position × Direction)} {here : Position} {start : Nat} {p : Formula}

theorem inBytes_of_mem_spansFrom {span : Span} (h : span ∈ p.spansFrom asked here start) :
    InBytes start (start + byteLength (p.write .symbols)) span := by
  obtain ⟨ask, -, pos, sub, before, -, hsub, hstart, hstop, -⟩ :=
    exists_left_of_forall₂ (forall₂_answers p asked here start) h
  obtain ⟨after, hwrite⟩ := hsub.exists_write_eq
  rw [InBytes, hwrite, byteLength_append, byteLength_append]
  omega

theorem mem_own {span : Span} (h : span ∈ spansFrom.own asked here start p) :
    span.start = start ∧ span.stop = start + byteLength (p.write .symbols) := by
  unfold spansFrom.own at h
  simp only [List.mem_filterMap, Option.ite_none_right_eq_some, Option.some.injEq] at h
  obtain ⟨ask, -, -, rfl⟩ := h
  exact ⟨rfl, rfl⟩

theorem pairwise_own : (spansFrom.own asked here start p).Pairwise Laminar := by
  refine List.pairwise_of_forall_mem_list fun a ha b hb => .inl ?_
  obtain ⟨hstart, hstop⟩ := mem_own ha
  obtain ⟨hstart', hstop'⟩ := mem_own hb
  omega

theorem pairwise_append_own {spans : List Span} (h : spans.Pairwise Laminar)
    (hspans : p.spansFrom asked here start = spans ++ spansFrom.own asked here start p) :
    (p.spansFrom asked here start).Pairwise Laminar := by
  rw [hspans]
  refine List.pairwise_append.mpr ⟨h, pairwise_own, fun a ha b hb => .inl ?_⟩
  obtain ⟨hstart, hstop⟩ := mem_own hb
  have hmem : a ∈ p.spansFrom asked here start := hspans ▸ List.mem_append_left _ ha
  obtain ⟨hfrom, -, hto⟩ := inBytes_of_mem_spansFrom hmem
  omega

theorem byteLength_leading (c : Connective) (left : Formula) :
    byteLength (opening (wraps c .left left)) + byteLength (left.write .symbols)
      ≤ byteLength (leading c left) := by
  simp only [leading, parens_eq, byteLength_append]
  omega

theorem pairwise_laminar_spansFrom (p : Formula) (asked : List (Position × Direction))
    (here : Position) (start : Nat) : (p.spansFrom asked here start).Pairwise Laminar := by
  induction p generalizing here start with
  | const value => exact pairwise_own
  | var name => exact pairwise_own
  | neg inner ih => exact pairwise_append_own (ih ..) (spansFrom_neg ..)
  | bin c left right ihl ihr =>
    refine pairwise_append_own (List.pairwise_append.mpr ⟨ihl .., ihr .., ?_⟩) (spansFrom_bin ..)
    intro a ha b hb
    obtain ⟨-, -, hto⟩ := inBytes_of_mem_spansFrom ha
    obtain ⟨hfrom, -, -⟩ := inBytes_of_mem_spansFrom hb
    have hleading := byteLength_leading c left
    rw [byteLength_append] at hfrom
    exact .inr (.inr (.inl (by omega)))

end Nested

section Exact

structure Shows (text : String) (span : Span) (sub : Formula) : Prop where
  bytes : text.toUTF8.extract span.start span.stop = sub.symbolText.toUTF8
  split : ∃ before after, text = before ++ sub.symbolText ++ after
    ∧ before.utf8ByteSize = span.start
    ∧ span.stop = span.start + sub.symbolText.utf8ByteSize

theorem shows_of_split {text before after : String} {span : Span} {sub : Formula}
    (htext : text = before ++ sub.symbolText ++ after) (hstart : before.utf8ByteSize = span.start)
    (hstop : span.stop = span.start + sub.symbolText.utf8ByteSize) : Shows text span sub := by
  refine ⟨?_, before, after, htext, hstart, hstop⟩
  rw [htext, String.toUTF8_eq_toByteArray, String.toUTF8_eq_toByteArray, String.toByteArray_append,
    String.toByteArray_append, ByteArray.append_assoc]
  simp only [hstop, ← hstart, ← String.size_toByteArray]
  rw [← Nat.add_zero before.toByteArray.size, Nat.add_assoc, Nat.zero_add,
    ByteArray.extract_append_size_add]
  exact ByteArray.extract_append_eq_left rfl

theorem Answers.shows {p : Formula} {ask : Position × Direction} {span : Span}
    (h : Answers p [] 0 ask span) :
    span.kind = ask.2 ∧ ∃ sub, p.at? ask.1 = some sub ∧ Shows p.symbolText span sub := by
  obtain ⟨pos, sub, before, rfl, hsub, hstart, hstop, hkind⟩ := h
  obtain ⟨after, hwrite⟩ := hsub.exists_write_eq
  have htext : p.symbolText = String.ofList before ++ sub.symbolText ++ String.ofList after := by
    rw [symbolText, hwrite, String.ofList_append, String.ofList_append, symbolText]
  refine ⟨hkind, sub, at?_eq_some_iff.mpr hsub.occurs, shows_of_split htext ?_ ?_⟩
  . rw [utf8ByteSize_ofList, hstart, Nat.zero_add]
  . rw [symbolText, utf8ByteSize_ofList, hstop]

/--
**Spans**: the marked form of a formula carries its display form. Its spans answer the requests at
the positions of the formula, in post-order and at one position in the order asked. A span covers
exactly the display form of its subformula, and two spans are nested or apart.
-/
theorem marked_exact (p : Formula) (asked : List (Position × Direction)) :
    (p.marked asked).text = p.symbolText
      ∧ p.postOrder.Perm p.positions
      ∧ List.Forall₂
        (fun ask span => span.kind = ask.2
          ∧ ∃ sub, p.at? ask.1 = some sub ∧ Shows (p.marked asked).text span sub)
        (p.answered asked) (p.marked asked).spans
      ∧ (p.marked asked).spans.Pairwise Laminar :=
  ⟨rfl, p.postOrder_perm_positions, (forall₂_answers p asked [] 0).imp fun _ _ h => h.shows,
    pairwise_laminar_spansFrom p asked [] 0⟩

end Exact

end Formula

end ProofDesk
