import Mathlib.Data.List.TakeWhile
import ProofDesk.Proofs.Editing
import ProofDesk.Proofs.Label.Order

/-!
This module contains the way from a label to its text and back.
-/

namespace ProofDesk

namespace Text

theorem trim_eq_self {text : List Char} (h : ∀ c ∈ text, isSpace c = false) : trim text = text := by
  have hdrop : ∀ cs : List Char, (∀ c ∈ cs, isSpace c = false) → cs.dropWhile isSpace = cs := by
    intro cs hcs
    cases cs with
    | nil => rfl
    | cons c cs =>
      rw [List.dropWhile_cons_of_neg]
      simp [hcs c List.mem_cons_self]
  unfold trim
  rw [hdrop text h, hdrop text.reverse (by simpa using h), List.reverse_reverse]

end Text

namespace Label

section Digits

variable {c : Char}

theorem isSpace_of_isDigit (h : c.isDigit) : Text.isSpace c = false := by
  have hval : 48 ≤ c.toNat ∧ c.toNat ≤ 57 := by
    simpa [Char.isDigit, UInt32.le_iff_toNat_le] using h
  simp only [Text.isSpace, Bool.or_eq_false_iff, Bool.and_eq_false_iff, beq_eq_false_iff_ne,
    decide_eq_false_iff_not]
  omega

theorem isDigit_of_mem_toDigits {n : Nat} (h : c ∈ Nat.toDigits 10 n) : c.isDigit :=
  Nat.isDigit_of_mem_toDigits (by decide) (by decide) h

theorem readPart?_toDigits {n : Nat} (h : 0 < n ∧ n ≤ maxPart) :
    readPart? (Nat.toDigits 10 n) = some n := by
  have hvalue := Nat.ofDigitChars_toDigits (b := 10) (n := n) (by decide) (by decide)
  have hne : Nat.toDigits 10 n ≠ [] := Nat.toDigits_ne_nil
  have hall : (Nat.toDigits 10 n).all Char.isDigit = true := by
    rw [List.all_eq_true]
    intro c
    exact isDigit_of_mem_toDigits
  rw [Nat.ofDigitChars_eq_foldl] at hvalue
  unfold readPart?
  split
  . next rest heq =>
    rw [heq] at hall
    simp at hall
  . dsimp only
    rw [hvalue]
    simp [hne, hall, h]

end Digits

section Pieces

variable {piece rest : List Char}

theorem pieces_append (h : '.' ∉ piece) : pieces (piece ++ '.' :: rest) = piece :: pieces rest := by
  induction piece with
  | nil => simp [pieces]
  | cons c piece ih =>
    rw [List.mem_cons, not_or] at h
    rw [List.cons_append, pieces, ih h.2]
    simp [Ne.symm h.1]

theorem pieces_eq_singleton (h : '.' ∉ piece) : pieces piece = [piece] := by
  induction piece with
  | nil => rfl
  | cons c piece ih =>
    rw [List.mem_cons, not_or] at h
    rw [pieces, ih h.2]
    simp [Ne.symm h.1]

theorem pieces_intercalate {parts : List (List Char)} (hne : parts ≠ [])
    (h : ∀ part ∈ parts, '.' ∉ part) : pieces (['.'].intercalate parts) = parts := by
  induction parts with
  | nil => contradiction
  | cons part parts ih =>
    rw [List.forall_mem_cons] at h
    cases parts with
    | nil =>
      rw [List.intercalate_singleton]
      exact pieces_eq_singleton h.1
    | cons part' parts =>
      rw [List.intercalate_cons_cons, List.append_assoc, List.singleton_append, pieces_append h.1,
        ih (by simp) h.2]

end Pieces

theorem toList_text (l : Label) :
    l.text.toList = ['.'].intercalate (l.parts.map (Nat.toDigits 10)) := by
  unfold text
  rw [String.toList_intercalate, List.map_map]
  congr 1
  apply List.map_congr_left
  intro n hn
  exact Nat.toList_repr

theorem ofText?_text {l : Label} (h : l.Proper) : ofText? l.text = some l := by
  have hpieces : pieces l.text.toList = l.parts.map (Nat.toDigits 10) := by
    rw [toList_text, pieces_intercalate]
    . simpa using h.1
    . rw [List.forall_mem_map]
      intro n hn hdot
      exact absurd (isDigit_of_mem_toDigits hdot) (by decide)
  have hread : ∀ n ∈ l.parts, readPart? (Text.trim (Nat.toDigits 10 n)) = some n := by
    intro n hn
    rw [Text.trim_eq_self fun c hc => isSpace_of_isDigit (isDigit_of_mem_toDigits hc)]
    exact readPart?_toDigits (h.2 n hn)
  have hparts := mapM_eq_pure_map (g := id) hread
  rw [List.map_id] at hparts
  unfold ofText?
  rw [hpieces, List.mapM_map]
  exact congrArg (Option.map mk) hparts

theorem ofText_text {l : Label} (h : l.Proper) : ofText l.text = .ok l := by
  unfold ofText
  rw [ofText?_text h]

section Read

theorem bounds_of_readPart?_eq_some {text : List Char} {n : Nat} (h : readPart? text = some n) :
    0 < n ∧ n ≤ maxPart := by
  unfold readPart? at h
  simp only [Option.ite_none_left_eq_some, Option.ite_none_right_eq_some, Option.some.injEq,
    Bool.and_eq_true, decide_eq_true_eq] at h
  obtain ⟨-, hbounds, rfl⟩ := h
  exact hbounds

theorem pieces_ne_nil (text : List Char) : pieces text ≠ [] := by
  cases text with
  | nil => simp [pieces]
  | cons c text =>
    rw [pieces]
    split
    . simp
    . split <;> simp

theorem proper_of_ofText?_eq_some {text : String} {l : Label} (h : ofText? text = some l) :
    l.Proper := by
  obtain ⟨parts, hparts, rfl⟩ := Option.map_eq_some_iff.mp h
  have hread := forall₂_of_mapM_eq_some hparts
  constructor
  . intro hnil
    have hlen := hread.length_eq
    rw [show parts = [] from hnil, List.length_nil, List.length_eq_zero_iff] at hlen
    exact pieces_ne_nil _ hlen
  . intro n hn
    obtain ⟨piece, -, hpiece⟩ := exists_left_of_forall₂ hread hn
    exact bounds_of_readPart?_eq_some hpiece

theorem proper_of_ofText_eq_ok {text : String} {l : Label} (h : ofText text = .ok l) :
    l.Proper := by
  unfold ofText at h
  split at h
  . next l' hl' =>
    rw [← Except.ok.inj h]
    exact proper_of_ofText?_eq_some hl'
  . simp at h

end Read

end Label

end ProofDesk
