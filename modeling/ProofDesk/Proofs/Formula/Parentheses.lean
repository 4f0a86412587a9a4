import ProofDesk.Proofs.Formula.Printing

/-!
This module contains the proof that the printer puts in no parentheses that could be left out. By
the grammar every text that stands for a formula has a pair of parentheses wherever the printed text
has one.
-/

namespace ProofDesk

namespace Token

theorem count_leftParen_of_spells {t : Token} {spelling : List Char} (h : Spells t spelling) :
    spelling.count '(' = [t].count .leftParen := by
  cases h with
  | leftParen => rfl
  | rightParen => rfl
  | not => rfl
  | connective c =>
    cases c with
    | implies => rfl
    | lattice l => cases l <;> rfl
  | word c cs hc hcs =>
    have hmem : '(' ∉ c :: cs := by
      rw [List.mem_cons, not_or]
      constructor
      . rintro rfl
        simp at hc
      . intro hparen
        simpa using hcs '(' hparen
    rw [List.count_eq_zero.mpr hmem]
    rfl

theorem Splits.count_leftParen {text : List Char} {ts : List Token} (h : Splits text ts) :
    text.count '(' = ts.count .leftParen := by
  induction h with
  | nil => rfl
  | blank hc h ih =>
    rw [List.count_cons_of_ne, ih]
    rintro rfl
    simp [isBlank] at hc
  | token ht hend h ih =>
    rw [List.count_append, count_leftParen_of_spells ht, ih, ← List.count_append]
    rfl

end Token

namespace Style

theorem count_negation (style : Style) : style.negation.count '(' = 0 := by
  cases style <;> rfl

theorem count_connective (style : Style) (k : Connective) :
    (style.connective k).count '(' = 0 := by
  cases k with
  | implies => cases style <;> rfl
  | lattice l => cases l <;> cases style <;> rfl

end Style

namespace Formula

section Tokens

variable {c c' : Category} {ts : List Token} {p : Formula}

def tokensAs (c : Category) (p : Formula) : List Token :=
  parensTokens (decide (c.rank < p.rank)) p.tokens

theorem count_tokensAs (c : Category) (p : Formula) :
    (tokensAs c p).count .leftParen
      =
    p.tokens.count .leftParen + if c.rank < p.rank then 1 else 0 := by
  unfold tokensAs parensTokens
  split <;> simp_all

theorem tokens_neg (p : Formula) : (neg p).tokens = .not :: tokensAs .negation p := by
  rfl

theorem tokens_bin (k : Connective) (p q : Formula) :
    (bin k p q).tokens
      =
    tokensAs (.ofOperand k .left) p ++ .connective k :: tokensAs (.ofOperand k .right) q := by
  rw [tokens, wraps_eq_decide, wraps_eq_decide]
  rfl

theorem count_tokensAs_le_of_rank_le (h : c.rank ≤ c'.rank) :
    (tokensAs c' p).count .leftParen ≤ (tokensAs c p).count .leftParen := by
  rw [count_tokensAs, count_tokensAs]
  split <;> split <;> omega

theorem count_tokensAs_bin_le {k : Connective} {us : List Token} {q : Formula}
    (hp : (tokensAs (.ofOperand k .left) p).count .leftParen ≤ ts.count .leftParen)
    (hq : (tokensAs (.ofOperand k .right) q).count .leftParen ≤ us.count .leftParen) :
    (tokensAs (.ofConnective k) (bin k p q)).count .leftParen
      ≤
    (ts ++ .connective k :: us).count .leftParen := by
  -- A connective needs no parentheses in its own category, so what it needs is what its operands
  -- need.
  have hrank : ¬(Category.ofConnective k).rank < (bin k p q).rank := by
    rw [← rank_category]
    apply Nat.lt_irrefl
  rw [count_tokensAs, if_neg hrank, tokens_bin]
  simp only [List.count_append, List.count_cons_of_ne, ne_eq, reduceCtorEq, not_false_eq_true]
  omega

theorem Derives.count_tokensAs_le (h : Derives c ts p) :
    (tokensAs c p).count .leftParen ≤ ts.count .leftParen := by
  induction h with
  | ofDisjunction _ ih | ofConjunction _ ih | ofNegation _ ih | ofPrimary _ ih =>
    refine Nat.le_trans ?_ ih
    apply count_tokensAs_le_of_rank_le
    decide
  | implies _ _ ihp ihq => exact count_tokensAs_bin_le (k := .implies) ihp ihq
  | or _ _ ihp ihq => exact count_tokensAs_bin_le (k := .lattice .or) ihp ihq
  | and _ _ ihp ihq => exact count_tokensAs_bin_le (k := .lattice .and) ihp ihq
  | @not _ p _ ih =>
    have hrank : ¬Category.negation.rank < (neg p).rank := Nat.lt_irrefl 1
    rw [count_tokensAs, if_neg hrank, tokens_neg, List.count_cons_of_ne (by simp),
      List.count_cons_of_ne (by simp)]
    exact ih
  | @parens ts p _ ih =>
    -- Inside of parentheses nothing has to be wrapped, and the pair itself is what `p` may need.
    have hrank : ¬Category.implication.rank < p.rank := by
      rw [← rank_category]
      exact Nat.not_lt.mpr p.category.rank_le
    rw [count_tokensAs, if_neg hrank] at ih
    rw [count_tokensAs, List.count_append, List.count_cons_self]
    split <;> omega
  | true => decide
  | false => decide
  | var name hT hF => exact Nat.le_refl 0

theorem Derives.count_tokens_le (h : Derives c ts p) :
    p.tokens.count .leftParen ≤ ts.count .leftParen := by
  have := h.count_tokensAs_le
  rw [count_tokensAs] at this
  omega

end Tokens

section Text

variable {p : Formula}

theorem count_parens (wrap : Bool) (text : List Char) :
    (parens wrap text).count '(' = text.count '(' + if wrap then 1 else 0 := by
  unfold parens
  split <;> simp

theorem count_leftParen_write (style style' : Style) (p : Formula) :
    (p.write style).count '(' = (p.write style').count '(' := by
  induction p with
  | const value => cases value <;> rfl
  | var name => rfl
  | neg inner ih =>
    simp only [write, List.count_append, Style.count_negation, count_parens, ih]
  | bin k left right ihl ihr =>
    simp only [write, List.count_append, List.count_cons, Style.count_connective, count_parens, ihl,
      ihr]

theorem count_leftParen_keywordText (h : p.isReadable) :
    p.keywordText.toList.count '(' = p.tokens.count .leftParen := by
  have hsplits := splits_write h (by simp [EndsWord]) .nil
  rw [List.append_nil, List.append_nil] at hsplits
  rw [keywordText, String.toList_ofList]
  exact hsplits.count_leftParen

theorem parentheses_minimal {text : String} (h : ofText text = .ok p) :
    ofText p.keywordText = .ok p
      ∧ p.keywordText.toList.count '(' ≤ text.toList.count '('
      ∧ p.symbolText.toList.count '(' = p.keywordText.toList.count '(' := by
  have hreadable := isReadable_of_ofText_eq_ok h
  obtain ⟨ts, hsplits, hderives⟩ := exists_of_ofText_eq_ok h
  refine ⟨ofText_of_isReadable hreadable, ?_, ?_⟩
  . rw [count_leftParen_keywordText hreadable, hsplits.count_leftParen]
    exact hderives.count_tokens_le
  . rw [symbolText, keywordText, String.toList_ofList, String.toList_ofList]
    apply count_leftParen_write

theorem wrapped_parentheses_minimal :
    ofText "((P or Q)) and (R)" = .ok (.conj (.disj (.var "P") (.var "Q")) (.var "R"))
      ∧ (conj (.disj (.var "P") (.var "Q")) (.var "R")).keywordText.toList.count '('
          ≤ "((P or Q)) and (R)".toList.count '(' := by
  have h : ofText "((P or Q)) and (R)" = .ok (.conj (.disj (.var "P") (.var "Q")) (.var "R")) := by
    rfl
  exact ⟨h, (parentheses_minimal h).2.1⟩

end Text

end Formula

end ProofDesk
