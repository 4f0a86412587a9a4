import Mathlib.Data.List.TakeWhile
import ProofDesk.Formula.Marked
import ProofDesk.Formula.Token

/-!
This module contains what it means for a text to consist of tokens, said without the scanner, and
the proof that the scanner finds exactly these tokens.
-/

namespace ProofDesk.Token

inductive Spells : Token → List Char → Prop where
  | leftParen : Spells .leftParen ['(']
  | rightParen : Spells .rightParen [')']
  | not : Spells .not ['n', 'o', 't']
  | connective (c : Connective) : Spells (.connective c) c.keyword.toList
  | word (c : Char) (cs : List Char) (hc : c.isUpper) (hcs : ∀ d ∈ cs, d.isAlphanum) :
      Spells (.word (String.ofList (c :: cs))) (c :: cs)

/--
Whether a token can end where `rest` begins. A word goes on as long as there are letters and digits;
every other token ends by itself.
-/
def EndsBefore (t : Token) (rest : List Char) : Prop :=
  ∀ name d, t = .word name → rest.head? = some d → ¬d.isAlphanum

inductive Splits : List Char → List Token → Prop where
  | nil : Splits [] []
  | blank {c : Char} {text : List Char} {ts : List Token} (hc : isBlank c) (h : Splits text ts) :
      Splits (c :: text) ts
  | token {t : Token} {spelling rest : List Char} {ts : List Token} (ht : Spells t spelling)
      (hend : t.EndsBefore rest) (h : Splits rest ts) : Splits (spelling ++ rest) (t :: ts)

section Head

variable {t : Token} {spelling rest text : List Char} {width : Nat}

theorem endsBefore_of_ne_word (h : ∀ name, t ≠ .word name) : t.EndsBefore rest := by
  intro name d ht
  exact absurd ht (h name)

theorem takeWhile_append_of_all {p : Char → Bool} {cs : List Char} (hcs : ∀ d ∈ cs, p d)
    (hrest : ∀ d, rest.head? = some d → ¬p d) : (cs ++ rest).takeWhile p = cs := by
  rw [List.takeWhile_append_of_pos hcs]
  cases rest with
  | nil => simp
  | cons d rest =>
    rw [List.takeWhile_cons_of_neg]
    . simp
    . exact hrest d rfl

theorem head?_of_isUpper {c : Char} {cs : List Char} (hc : c.isUpper) :
    head? (c :: cs)
      =
    some (.word (String.ofList (c :: cs.takeWhile Char.isAlphanum)),
      (cs.takeWhile Char.isAlphanum).length + 1) := by
  unfold head?
  split <;> simp_all

theorem head?_of_spells (h : Spells t spelling) (hend : t.EndsBefore rest) :
    head? (spelling ++ rest) = some (t, spelling.length) := by
  cases h with
  | leftParen => rfl
  | rightParen => rfl
  | not => rfl
  | connective c =>
    cases c with
    | implies => rfl
    | lattice l => cases l <;> rfl
  | word c cs hc hcs =>
    rw [List.cons_append, head?_of_isUpper hc, takeWhile_append_of_all hcs]
    . rfl
    . intro d hd
      exact hend _ d rfl hd

theorem exists_split_of_spells {t' : Token} (ht : Spells t spelling) (hend : t.EndsBefore rest)
    (h : some (t, spelling.length) = some (t', width)) :
    ∃ spelling' rest', spelling ++ rest = spelling' ++ rest' ∧ spelling'.length = width
      ∧ Spells t' spelling' ∧ t'.EndsBefore rest' := by
  simp only [Option.some.injEq, Prod.mk.injEq] at h
  obtain ⟨rfl, rfl⟩ := h
  exact ⟨spelling, rest, rfl, rfl, ht, hend⟩

theorem exists_of_head?_eq_some (h : head? text = some (t, width)) :
    ∃ spelling rest, text = spelling ++ rest ∧ spelling.length = width ∧ Spells t spelling
      ∧ t.EndsBefore rest := by
  unfold head? at h
  split at h
  . exact exists_split_of_spells .leftParen (endsBefore_of_ne_word (by simp)) h
  . exact exists_split_of_spells .rightParen (endsBefore_of_ne_word (by simp)) h
  . exact exists_split_of_spells .not (endsBefore_of_ne_word (by simp)) h
  . exact exists_split_of_spells (.connective (.lattice .and)) (endsBefore_of_ne_word (by simp)) h
  . exact exists_split_of_spells (.connective (.lattice .or)) (endsBefore_of_ne_word (by simp)) h
  . exact exists_split_of_spells (.connective .implies) (endsBefore_of_ne_word (by simp)) h
  . next c cs _ _ _ _ _ _ =>
    split at h
    . next hc =>
      rw [← List.takeWhile_append_dropWhile (p := Char.isAlphanum) (l := cs), ← List.cons_append]
      apply exists_split_of_spells (.word c _ hc _) _ h
      . intro d hd
        exact List.mem_takeWhile_imp hd
      . intro _ d _ hd
        simpa [hd] using List.head?_dropWhile_not Char.isAlphanum cs
    . simp at h
  . simp at h

theorem exists_of_spells (h : Spells t spelling) : ∃ c cs, spelling = c :: cs ∧ ¬isBlank c := by
  cases h with
  | leftParen => exact ⟨_, _, rfl, by decide⟩
  | rightParen => exact ⟨_, _, rfl, by decide⟩
  | not => exact ⟨_, _, rfl, by decide⟩
  | connective c =>
    cases c with
    | implies => exact ⟨_, _, rfl, by decide⟩
    | lattice l => cases l <;> exact ⟨_, _, rfl, by decide⟩
  | word c cs hc hcs =>
    refine ⟨c, cs, rfl, ?_⟩
    intro hblank
    simp only [isBlank, Bool.or_eq_true, beq_iff_eq] at hblank
    rcases hblank with ((rfl | rfl) | rfl) | rfl <;> simp at hc

end Head

section Scan

open Formula (byteLength)

variable {c : Char} {text rest : List Char} {ts : List Token} {offset : Nat}

theorem scan.go_blank (hc : isBlank c) :
    scan.go offset 0 (c :: text) = scan.go (offset + c.utf8Size) 0 text := by
  rw [scan.go]
  simp [hc]

theorem scan.go_skip (offset : Nat) (skipped rest : List Char) :
    scan.go offset skipped.length (skipped ++ rest)
      =
    scan.go (offset + byteLength skipped) 0 rest := by
  induction skipped generalizing offset with
  | nil => rfl
  | cons c skipped ih =>
    rw [List.cons_append, List.length_cons, scan.go, ih, byteLength, Nat.add_assoc]

theorem scan.go_token (offset : Nat) {t : Token} {spelling : List Char} (ht : Spells t spelling)
    (hend : t.EndsBefore rest) :
    scan.go offset 0 (spelling ++ rest)
      =
    ⟨t, offset⟩ :: scan.go (offset + byteLength spelling) 0 rest := by
  have hhead := head?_of_spells ht hend
  obtain ⟨c, cs, rfl, hc⟩ := exists_of_spells ht
  rw [List.cons_append] at hhead ⊢
  rw [scan.go, if_neg hc, hhead]
  dsimp only
  rw [List.length_cons, Nat.add_sub_cancel, scan.go_skip, byteLength, Nat.add_assoc]

inductive Scans : Nat → List Char → List Lexeme → Prop where
  | nil {offset : Nat} : Scans offset [] []
  | blank {offset : Nat} {c : Char} {text : List Char} {ts : List Lexeme} (hc : isBlank c)
      (h : Scans (offset + c.utf8Size) text ts) : Scans offset (c :: text) ts
  | token {offset : Nat} {t : Token} {spelling rest : List Char} {ts : List Lexeme}
      (ht : Spells t spelling) (hend : t.EndsBefore rest)
      (h : Scans (offset + byteLength spelling) rest ts) :
      Scans offset (spelling ++ rest) (⟨t, offset⟩ :: ts)
  | stray {offset : Nat} {c : Char} {text : List Char} (hc : ¬isBlank c) :
      Scans offset (c :: text) [⟨.stray, offset⟩]

theorem scans_go (offset : Nat) (text : List Char) : Scans offset text (scan.go offset 0 text) := by
  -- A token can take more than one character, so the induction is on the length of the text.
  induction hn : text.length using Nat.strong_induction_on generalizing text offset with
  | h n ih =>
    cases text with
    | nil => exact .nil
    | cons c cs =>
      by_cases hc : isBlank c
      . rw [scan.go_blank hc]
        exact .blank hc (ih cs.length (by simp at hn; omega) _ cs rfl)
      . cases hhead : head? (c :: cs) with
        | none =>
          rw [scan.go, if_neg hc, hhead]
          exact .stray hc
        | some found =>
          obtain ⟨spelling, rest, htext, -, ht, hend⟩ := exists_of_head?_eq_some hhead
          obtain ⟨d, ds, rfl, -⟩ := exists_of_spells ht
          rw [htext] at hn ⊢
          rw [scan.go_token offset ht hend]
          refine .token ht hend (ih rest.length ?_ _ rest rfl)
          simp at hn
          omega

theorem Splits.map_scan_go (h : Splits text ts) :
    (scan.go offset 0 text).map Lexeme.token = ts := by
  induction h generalizing offset with
  | nil => rfl
  | blank hc h ih =>
    rw [scan.go_blank hc]
    exact ih
  | token ht hend h ih => rw [scan.go_token offset ht hend, List.map_cons, ih]

theorem Scans.splits {lexemes : List Lexeme} (h : Scans offset text lexemes)
    (hstray : .stray ∉ lexemes.map Lexeme.token) : Splits text (lexemes.map Lexeme.token) := by
  induction h with
  | nil => exact .nil
  | blank hc h ih => exact .blank hc (ih hstray)
  | token ht hend h ih =>
    rw [List.map_cons] at hstray ⊢
    exact .token ht hend (ih fun hmem => hstray (List.mem_cons_of_mem _ hmem))
  | stray hc => simp at hstray

theorem stray_not_mem_of_splits (h : Splits text ts) : .stray ∉ ts := by
  induction h with
  | nil => simp
  | blank _ _ ih => exact ih
  | token ht _ _ ih =>
    rw [List.mem_cons, not_or]
    refine ⟨?_, ih⟩
    rintro rfl
    cases ht

theorem splits_iff :
    Splits text ts ↔ (scan text).map Lexeme.token = ts ∧ .stray ∉ ts := by
  constructor
  . intro h
    exact ⟨h.map_scan_go, stray_not_mem_of_splits h⟩
  . rintro ⟨rfl, h⟩
    exact (scans_go 0 text).splits h

end Scan

end ProofDesk.Token
