import ProofDesk.Formula.Printer
import ProofDesk.Proofs.Formula.Grammar

/-!
This module contains the way from a formula to its text and back. The printed text of a formula
splits into tokens, these tokens derive the formula by the grammar, and so the formula is read back.
The only condition is that the names of the variables are words that are not taken for constants.
-/

namespace ProofDesk

def Token.isWord (name : String) : Bool :=
  match name.toList with
  | [] => false
  | c :: cs => c.isUpper && cs.all Char.isAlphanum

namespace Formula

def isReadable : Formula → Bool
  | const _ => true
  | var name => Token.isWord name && name != "T" && name != "F"
  | neg inner => inner.isReadable
  | bin _ left right => left.isReadable && right.isReadable

namespace Category

def ofConnective : Connective → Category
  | .lattice l => .joined l
  | .implies => .implication

def ofOperand : Connective → Side → Category
  | .lattice l, .left => .joined l
  | .lattice l, .right => .operand l
  | .implies, .left => .disjunction
  | .implies, .right => .implication

def looser : Category → Category
  | primary => negation
  | negation => conjunction
  | conjunction => disjunction
  | disjunction => implication
  | implication => implication

theorem rank_le (c : Category) : c.rank ≤ 4 := by
  cases c <;> decide

theorem rank_looser {c : Category} (h : c.rank < 4) : c.looser.rank = c.rank + 1 := by
  cases c <;> simp_all [rank, looser]

theorem eq_of_rank_eq {c c' : Category} (h : c.rank = c'.rank) : c = c' := by
  cases c <;> cases c' <;> simp_all [rank]

end Category

def category : Formula → Category
  | const _ => .primary
  | var _ => .primary
  | neg _ => .negation
  | bin c _ _ => .ofConnective c

def parensTokens (wrap : Bool) (ts : List Token) : List Token :=
  if wrap then .leftParen :: ts ++ [.rightParen] else ts

def tokens : Formula → List Token
  | const true => [.word "T"]
  | const false => [.word "F"]
  | var name => [.word name]
  | neg inner => .not :: parensTokens (wrapsNegated inner) inner.tokens
  | bin c left right =>
    parensTokens (wraps c .left left) left.tokens
      ++ .connective c :: parensTokens (wraps c .right right) right.tokens

section Derives

variable {c : Category} {ts us : List Token} {p q : Formula}

theorem rank_category (p : Formula) : p.category.rank = p.rank := by
  cases p with
  | const value => rfl
  | var name => rfl
  | neg inner => rfl
  | bin c left right =>
    cases c with
    | implies => rfl
    | lattice l => cases l <;> rfl

theorem Derives.loosen (h : Derives c ts p) : Derives c.looser ts p := by
  cases c with
  | primary => exact .ofPrimary h
  | negation => exact .ofNegation h
  | conjunction => exact .ofConjunction h
  | disjunction => exact .ofDisjunction h
  | implication => exact h

theorem Derives.of_rank_le {c' : Category} (h : Derives c ts p) (hrank : c.rank ≤ c'.rank) :
    Derives c' ts p := by
  induction hn : c'.rank - c.rank generalizing c with
  | zero =>
    have heq : c = c' := Category.eq_of_rank_eq (by omega)
    rw [← heq]
    exact h
  | succ n ih =>
    have hlooser := c.rank_looser (by have := c'.rank_le; omega)
    apply ih h.loosen
    . omega
    . omega

theorem Derives.bin {k : Connective} (hp : Derives (.ofOperand k .left) ts p)
    (hq : Derives (.ofOperand k .right) us q) :
    Derives (.ofConnective k) (ts ++ .connective k :: us) (.bin k p q) := by
  cases k with
  | implies => exact .implies hp hq
  | lattice l => exact (derives_joined_iff l).mpr (.inr ⟨_, _, _, _, rfl, rfl, hp, hq⟩)

theorem rank_ofOperand (k : Connective) (side : Side) :
    (Category.ofOperand k side).rank ≤ k.rank ∧ k.rank ≤ (Category.ofOperand k side).rank + 1 := by
  cases k with
  | implies => cases side <;> decide
  | lattice l => cases l <;> cases side <;> decide

theorem wraps_eq_decide (k : Connective) (side : Side) (p : Formula) :
    wraps k side p = decide ((Category.ofOperand k side).rank < p.rank) := by
  unfold wraps
  split
  . next heq =>
    rw [heq]
    cases k with
    | implies => cases side <;> rfl
    | lattice l => cases l <;> cases side <;> rfl
  . next hne =>
    have := rank_ofOperand k side
    rw [decide_eq_decide]
    omega

theorem rank_le_of_wraps_eq_false {k : Connective} {side : Side} (h : wraps k side p = false) :
    p.rank ≤ (Category.ofOperand k side).rank := by
  rw [wraps_eq_decide, decide_eq_false_iff_not] at h
  omega

theorem derives_parensTokens {wrap : Bool} (h : Derives p.category p.tokens p)
    (hwrap : wrap = false → p.rank ≤ c.rank) : Derives c (parensTokens wrap p.tokens) p := by
  unfold parensTokens
  split
  . have himplication : Derives .implication p.tokens p := h.of_rank_le p.category.rank_le
    exact (Derives.parens himplication).of_rank_le (Nat.zero_le _)
  . next hfalse =>
    apply h.of_rank_le
    rw [rank_category]
    apply hwrap
    simpa using hfalse

theorem derives_tokens (h : p.isReadable) : Derives p.category p.tokens p := by
  induction p with
  | const value => cases value <;> constructor
  | var name =>
    simp only [isReadable, Bool.and_eq_true, bne_iff_ne] at h
    exact .var name h.1.2 h.2
  | neg inner ih =>
    apply Derives.not
    apply derives_parensTokens (ih h)
    intro hwrap
    simp only [wrapsNegated, decide_eq_false_iff_not, Nat.not_lt] at hwrap
    exact hwrap
  | bin c left right ihl ihr =>
    simp only [isReadable, Bool.and_eq_true] at h
    apply Derives.bin
    . apply derives_parensTokens (ihl h.1)
      exact rank_le_of_wraps_eq_false
    . apply derives_parensTokens (ihr h.2)
      exact rank_le_of_wraps_eq_false

end Derives

section Splits

open Token

variable {rest : List Char} {ts : List Token} {p : Formula}

theorem isWord_iff {name : String} :
    isWord name ↔ ∃ c cs, name = String.ofList (c :: cs) ∧ c.isUpper ∧ ∀ d ∈ cs, d.isAlphanum := by
  unfold isWord
  constructor
  . intro h
    split at h
    . simp at h
    . next c cs hname =>
      simp only [Bool.and_eq_true, List.all_eq_true] at h
      refine ⟨c, cs, ?_, h⟩
      rw [← hname, String.ofList_toList]
  . rintro ⟨c, cs, rfl, hc, hcs⟩
    rw [String.toList_ofList]
    simp only [Bool.and_eq_true, List.all_eq_true]
    exact ⟨hc, hcs⟩

def EndsWord (rest : List Char) : Prop :=
  ∀ d, rest.head? = some d → ¬d.isAlphanum

theorem EndsWord.endsBefore (h : EndsWord rest) (t : Token) : t.EndsBefore rest := by
  intro _ d _ hd
  exact h d hd

theorem splits_word (name : String) (hname : isWord name) (hend : EndsWord rest)
    (hrest : Splits rest ts) : Splits (name.toList ++ rest) (.word name :: ts) := by
  obtain ⟨c, cs, rfl, hc, hcs⟩ := isWord_iff.mp hname
  rw [String.toList_ofList]
  exact .token (.word c cs hc hcs) (hend.endsBefore _) hrest

theorem splits_parens (wrap : Bool) {text : List Char} {us : List Token}
    (h : ∀ rest ts, EndsWord rest → Splits rest ts → Splits (text ++ rest) (us ++ ts))
    (hend : EndsWord rest) (hrest : Splits rest ts) :
    Splits (parens wrap text ++ rest) (parensTokens wrap us ++ ts) := by
  cases wrap with
  | false => exact h rest ts hend hrest
  | true =>
    have hclosed := Splits.token .rightParen (endsBefore_of_ne_word (by simp)) hrest
    have hinner := h _ _ (by simp [EndsWord]) hclosed
    have hopened := Splits.token .leftParen (endsBefore_of_ne_word (by simp)) hinner
    simpa [parens, parensTokens] using hopened

theorem splits_write (h : p.isReadable) (hend : EndsWord rest) (hrest : Splits rest ts) :
    Splits (p.write .keywords ++ rest) (p.tokens ++ ts) := by
  induction p generalizing rest ts with
  | const value =>
    cases value with
    | true => exact splits_word "T" (by decide) hend hrest
    | false => exact splits_word "F" (by decide) hend hrest
  | var name =>
    simp only [isReadable, Bool.and_eq_true] at h
    exact splits_word name h.1.1 hend hrest
  | neg inner ih =>
    have hinner := splits_parens (wrapsNegated inner) (fun _ _ => ih h) hend hrest
    have hblank := Splits.blank (c := ' ') (by decide) hinner
    have hnot := Splits.token .not (endsBefore_of_ne_word (by simp)) hblank
    simpa [write, tokens, Style.negation] using hnot
  | bin c left right ihl ihr =>
    simp only [isReadable, Bool.and_eq_true] at h
    have hright := splits_parens (wraps c .right right) (fun _ _ => ihr h.2) hend hrest
    have hconnective := Splits.token (.connective c) (endsBefore_of_ne_word (by simp))
      (.blank (c := ' ') (by decide) hright)
    -- The blank before the connective keeps it apart from a word at the end of the left side.
    have hleft := splits_parens (wraps c .left left) (fun _ _ => ihl h.1)
      (by simp [EndsWord]) (.blank (c := ' ') (by decide) hconnective)
    simpa [write, tokens, Style.connective] using hleft

theorem isWord_of_splits {text : List Char} (h : Splits text ts) {name : String}
    (hname : .word name ∈ ts) : isWord name := by
  induction h with
  | nil => simp at hname
  | blank _ _ ih => exact ih hname
  | token ht _ _ ih =>
    rcases List.mem_cons.mp hname with rfl | hname
    . cases ht with
      | word c cs hc hcs => exact isWord_iff.mpr ⟨c, cs, rfl, hc, hcs⟩
    . exact ih hname

theorem Derives.isReadable {c : Category} (h : Derives c ts p)
    (hwords : ∀ name, .word name ∈ ts → isWord name) : p.isReadable := by
  induction h with
  | ofDisjunction _ ih | ofConjunction _ ih | ofNegation _ ih | ofPrimary _ ih => exact ih hwords
  | implies _ _ ihp ihq | or _ _ ihp ihq | and _ _ ihp ihq =>
    rw [Formula.isReadable, Bool.and_eq_true]
    refine ⟨ihp ?_, ihq ?_⟩
    . exact fun name hname => hwords name (by simp [hname])
    . exact fun name hname => hwords name (by simp [hname])
  | not _ ih => exact ih fun name hname => hwords name (by simp [hname])
  | parens _ ih => exact ih fun name hname => hwords name (by simp [hname])
  | true => rfl
  | false => rfl
  | var name hT hF => simp [Formula.isReadable, hwords name, hT, hF]

end Splits

theorem isReadable_of_ofText_eq_ok {text : String} {p : Formula} (h : ofText text = .ok p) :
    p.isReadable := by
  obtain ⟨ts, hsplits, hderives⟩ := exists_of_ofText_eq_ok h
  exact hderives.isReadable fun name => isWord_of_splits hsplits

theorem ofText_of_isReadable {p : Formula} (h : p.isReadable) : ofText p.keywordText = .ok p := by
  have hsplits := splits_write h (by simp [EndsWord]) .nil
  rw [List.append_nil, List.append_nil] at hsplits
  apply ofText_eq_ok_of_splits
  . rw [keywordText, String.toList_ofList]
    exact hsplits
  . exact (derives_tokens h).of_rank_le p.category.rank_le

theorem ofText_keywordText_eq_ok_iff (p : Formula) :
    ofText p.keywordText = .ok p ↔ p.isReadable := by
  constructor
  . exact isReadable_of_ofText_eq_ok
  . exact ofText_of_isReadable

end Formula

end ProofDesk
