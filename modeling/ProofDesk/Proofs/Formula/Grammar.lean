import ProofDesk.Formula.Reader
import ProofDesk.Proofs.Formula.Tokens

/-!
This module contains the grammar of formulas as a relation between tokens and formulas, and the
proof that the readers accept exactly what the grammar derives. A reader is sound for a category of
the grammar if what it consumes is derived, and complete if it consumes all of a derived list,
provided that no connective follows by which the list could go on.
-/

namespace ProofDesk.Formula

inductive Category where
  | implication
  | disjunction
  | conjunction
  | negation
  | primary
  deriving DecidableEq, Repr

open Token in
/--
The formulas that a list of tokens stands for. `implies` groups to the right, `or` and `and` group
to the left.
-/
inductive Derives : Category → List Token → Formula → Prop where
  | ofDisjunction {ts : List Token} {p : Formula} (h : Derives .disjunction ts p) :
      Derives .implication ts p
  | implies {ts us : List Token} {p q : Formula} (hp : Derives .disjunction ts p)
      (hq : Derives .implication us q) :
      Derives .implication (ts ++ connective .implies :: us) (.imp p q)
  | ofConjunction {ts : List Token} {p : Formula} (h : Derives .conjunction ts p) :
      Derives .disjunction ts p
  | or {ts us : List Token} {p q : Formula} (hp : Derives .disjunction ts p)
      (hq : Derives .conjunction us q) :
      Derives .disjunction (ts ++ connective (.lattice .or) :: us) (.disj p q)
  | ofNegation {ts : List Token} {p : Formula} (h : Derives .negation ts p) :
      Derives .conjunction ts p
  | and {ts us : List Token} {p q : Formula} (hp : Derives .conjunction ts p)
      (hq : Derives .negation us q) :
      Derives .conjunction (ts ++ connective (.lattice .and) :: us) (.conj p q)
  | ofPrimary {ts : List Token} {p : Formula} (h : Derives .primary ts p) : Derives .negation ts p
  | not {ts : List Token} {p : Formula} (h : Derives .negation ts p) :
      Derives .negation (Token.not :: ts) (.neg p)
  | parens {ts : List Token} {p : Formula} (h : Derives .implication ts p) :
      Derives .primary (leftParen :: ts ++ [rightParen]) p
  | true : Derives .primary [word "T"] (.const true)
  | false : Derives .primary [word "F"] (.const false)
  | var (name : String) (hT : name ≠ "T") (hF : name ≠ "F") :
      Derives .primary [word name] (.var name)

namespace Category

def rank : Category → Nat
  | implication => 4
  | disjunction => 3
  | conjunction => 2
  | negation => 1
  | primary => 0

def joined : Lattice → Category
  | .and => conjunction
  | .or => disjunction

def operand : Lattice → Category
  | .and => negation
  | .or => conjunction

end Category

section Derives

variable {c : Category} {ts us : List Token} {p q : Formula}

theorem Derives.ne_nil (h : Derives c ts p) : ts ≠ [] := by
  induction h <;> simp_all

theorem Derives.stray_not_mem (h : Derives c ts p) : .stray ∉ ts := by
  induction h <;> simp_all

theorem derives_ofWord (name : String) : Derives .primary [.word name] (ofWord name) := by
  unfold ofWord
  split
  . next h =>
    rw [h]
    exact .true
  . next hT =>
    split
    . next h =>
      rw [h]
      exact .false
    . next hF => exact .var name hT hF

theorem derives_joined_iff (l : Lattice) :
    Derives (.joined l) ts p
      ↔
    Derives (.operand l) ts p
      ∨ ∃ us vs q r, ts = us ++ .connective (.lattice l) :: vs ∧ p = .latt l q r
          ∧ Derives (.joined l) us q ∧ Derives (.operand l) vs r := by
  cases l with
  | and =>
    constructor
    . intro h
      cases h with
      | ofNegation h => exact .inl h
      | and hp hq => exact .inr ⟨_, _, _, _, rfl, rfl, hp, hq⟩
    . rintro (h | ⟨us, vs, q, r, rfl, rfl, hp, hq⟩)
      . exact .ofNegation h
      . exact .and hp hq
  | or =>
    constructor
    . intro h
      cases h with
      | ofConjunction h => exact .inl h
      | or hp hq => exact .inr ⟨_, _, _, _, rfl, rfl, hp, hq⟩
    . rintro (h | ⟨us, vs, q, r, rfl, rfl, hp, hq⟩)
      . exact .ofConjunction h
      . exact .or hp hq

theorem derives_negation_iff :
    Derives .negation ts p
      ↔
    (∃ us q, ts = .not :: us ∧ p = .neg q ∧ Derives .negation us q)
      ∨ (∃ us, ts = .leftParen :: (us ++ [.rightParen]) ∧ Derives .implication us p)
      ∨ ∃ name, ts = [.word name] ∧ p = ofWord name := by
  constructor
  . intro h
    cases h with
    | not h => exact .inl ⟨_, _, rfl, rfl, h⟩
    | ofPrimary h =>
      right
      cases h with
      | parens h => exact .inl ⟨_, rfl, h⟩
      | true => exact .inr ⟨"T", rfl, rfl⟩
      | false => exact .inr ⟨"F", rfl, rfl⟩
      | var name hT hF => exact .inr ⟨name, rfl, by simp [ofWord, hT, hF]⟩
  . rintro (⟨us, q, rfl, rfl, h⟩ | ⟨us, rfl, h⟩ | ⟨name, rfl, rfl⟩)
    . exact .not h
    . exact .ofPrimary (.parens h)
    . exact .ofPrimary (derives_ofWord name)

end Derives

namespace Reader

def Sound (read : TokenReader) (c : Category) : Prop :=
  ∀ ts p rest, read ts = some (p, rest) →
    ∃ used, ts = used ++ rest ∧ Derives c (used.map Lexeme.token) p

def Stops (c : Category) (rest : List Lexeme) : Prop :=
  ∀ k offset ts, rest = ⟨.connective k, offset⟩ :: ts → c.rank < k.rank

theorem Stops.mono {c c' : Category} {rest : List Lexeme} (h : Stops c rest)
    (hrank : c'.rank ≤ c.rank) : Stops c' rest := by
  intro k offset ts heq
  exact Nat.lt_of_le_of_lt hrank (h k offset ts heq)

theorem stops_connective {c : Category} {k : Connective} (h : c.rank < k.rank) (offset : Nat)
    (ts : List Lexeme) : Stops c (⟨.connective k, offset⟩ :: ts) := by
  intro k' offset' ts' heq
  obtain ⟨⟨rfl, -⟩, -⟩ := by simpa using heq
  exact h

def Complete (read : TokenReader) (c : Category) (bound : Nat) : Prop :=
  ∀ used rest p, used.length < bound → Derives c (used.map Lexeme.token) p → Stops c rest →
    read (used ++ rest) = some (p, rest)

theorem Sound.length_lt {read : TokenReader} {c : Category} (h : Sound read c)
    {ts rest : List Lexeme} {p : Formula} (hread : read ts = some (p, rest)) :
    rest.length < ts.length := by
  obtain ⟨used, rfl, hused⟩ := h ts p rest hread
  have hne : used ≠ [] := by
    rintro rfl
    exact hused.ne_nil rfl
  have := List.length_pos_iff.mpr hne
  rw [List.length_append]
  omega

section Operand

variable {inner : TokenReader}

theorem sound_operand (h : Sound inner .implication) : Sound (operand inner) .negation := by
  intro ts
  fun_induction operand inner ts with
  | case1 offset ts p rest hread ih =>
    intro p' rest' heq
    simp only [Option.some.injEq, Prod.mk.injEq] at heq
    obtain ⟨used, rfl, hused⟩ := ih p rest hread
    rw [← heq.1, ← heq.2]
    exact ⟨⟨.not, offset⟩ :: used, rfl, .not hused⟩
  | case2 => simp
  | case3 offset ts p offset' rest hread =>
    intro p' rest' heq
    simp only [Option.some.injEq, Prod.mk.injEq] at heq
    obtain ⟨used, rfl, hused⟩ := h _ _ _ hread
    rw [← heq.1, ← heq.2]
    refine ⟨⟨.leftParen, offset⟩ :: used ++ [⟨.rightParen, offset'⟩], by simp, .ofPrimary ?_⟩
    simpa using Derives.parens hused
  | case4 => simp
  | case5 name offset ts =>
    intro p' rest' heq
    simp only [Option.some.injEq, Prod.mk.injEq] at heq
    rw [← heq.1, ← heq.2]
    exact ⟨[⟨.word name, offset⟩], rfl, .ofPrimary (derives_ofWord name)⟩
  | case6 => simp

theorem complete_operand {bound : Nat} (h : Complete inner .implication bound) :
    Complete (operand inner) .negation (bound + 1) := by
  intro used
  -- A `not` stays in this reader and only makes the list shorter; a parenthesis calls `inner`.
  induction used with
  | nil =>
    intro rest p hlen hused hrest
    exact absurd rfl hused.ne_nil
  | cons t used ih =>
    intro rest p hlen hused hrest
    obtain ⟨token, offset⟩ := t
    rw [List.map_cons, derives_negation_iff] at hused
    rw [List.length_cons] at hlen
    rcases hused with ⟨us, q, htokens, rfl, hq⟩ | ⟨us, htokens, hp⟩ | ⟨name, htokens, rfl⟩
    . obtain ⟨rfl, rfl⟩ := List.cons.inj htokens
      rw [List.cons_append, operand, ih rest q (by omega) hq hrest]
    . obtain ⟨rfl, htail⟩ := List.cons.inj htokens
      obtain ⟨used, last, rfl, rfl, hlast⟩ := List.map_eq_append_iff.mp htail
      obtain ⟨⟨token, offset'⟩, rfl, rfl⟩ := List.map_eq_singleton_iff.mp hlast
      rw [List.length_append, List.length_singleton] at hlen
      have hinner := h used (⟨.rightParen, offset'⟩ :: rest) p (by omega) hp (by simp [Stops])
      rw [List.cons_append, List.append_assoc, List.singleton_append, operand, hinner]
    . obtain ⟨rfl, htail⟩ := List.cons.inj htokens
      rw [List.map_eq_nil_iff.mp htail, List.singleton_append, operand]

end Operand

section Joined

variable {l : Lattice} {sub : TokenReader}

theorem sound_extend (h : Sound sub (.operand l)) (fuel : Nat) {p : Formula} {used : List Lexeme}
    (ts : List Lexeme) (hused : Derives (.joined l) (used.map Lexeme.token) p) :
    ∃ more, ts = more ++ (extend l sub fuel p ts).2
      ∧ Derives (.joined l) ((used ++ more).map Lexeme.token) (extend l sub fuel p ts).1 := by
  fun_induction extend l sub fuel p ts generalizing used with
  | case1 p ts => exact ⟨[], rfl, by simpa using hused⟩
  | case2 fuel p offset rest q rest' hread ih =>
    obtain ⟨operand, rfl, hoperand⟩ := h _ _ _ hread
    have hjoined :
        Derives (.joined l)
          ((used ++ ⟨.connective (.lattice l), offset⟩ :: operand).map Lexeme.token)
          (.latt l p q) := by
      rw [derives_joined_iff, List.map_append]
      exact .inr ⟨_, _, _, _, rfl, rfl, hused, hoperand⟩
    obtain ⟨more, hmore, hderives⟩ := ih hjoined
    refine ⟨⟨.connective (.lattice l), offset⟩ :: operand ++ more, ?_, ?_⟩
    . rw [List.append_assoc, ← hmore, List.cons_append]
    . rw [← List.append_assoc]
      exact hderives
  | case3 => exact ⟨[], rfl, by simpa using hused⟩
  | case4 => exact ⟨[], rfl, by simpa using hused⟩
  | case5 => exact ⟨[], rfl, by simpa using hused⟩

theorem sound_joined (h : Sound sub (.operand l)) : Sound (joined l sub) (.joined l) := by
  intro ts p rest hread
  unfold joined at hread
  split at hread
  . next q rest' hq =>
    obtain ⟨used, rfl, hused⟩ := h _ _ _ hq
    obtain ⟨more, hmore, hderives⟩ :=
      sound_extend h rest'.length rest' ((derives_joined_iff l).mpr (.inl hused))
    rw [Option.some.injEq] at hread
    rw [hread] at hmore hderives
    refine ⟨used ++ more, ?_, hderives⟩
    rw [List.append_assoc, ← hmore]
  . simp at hread

theorem extend_eq_of_le (h : Sound sub (.operand l)) {fuel fuel' : Nat} {p : Formula}
    {ts : List Lexeme} (hfuel : ts.length ≤ fuel) (hfuel' : ts.length ≤ fuel') :
    extend l sub fuel p ts = extend l sub fuel' p ts := by
  induction fuel generalizing fuel' p ts with
  | zero =>
    rw [List.length_eq_zero_iff.mp (Nat.le_zero.mp hfuel)]
    cases fuel' <;> rfl
  | succ fuel ih =>
    cases fuel' with
    | zero =>
      rw [List.length_eq_zero_iff.mp (Nat.le_zero.mp hfuel')]
      rfl
    | succ fuel' =>
      unfold extend
      split
      . next l' offset rest =>
        rw [List.length_cons] at hfuel hfuel'
        split
        . split
          . next q rest' hread =>
            have := h.length_lt hread
            apply ih
            . omega
            . omega
          . rfl
        . rfl
      . rfl

theorem extend_eq_self {fuel : Nat} {p : Formula} {ts : List Lexeme} (h : Stops (.joined l) ts) :
    extend l sub fuel p ts = (p, ts) := by
  cases fuel with
  | zero => rfl
  | succ fuel =>
    unfold extend
    split
    . next l' offset rest =>
      have := h _ _ _ rfl
      split
      . next heq =>
        subst heq
        cases l' <;> simp [Category.joined, Category.rank, Connective.rank] at this
      . rfl
    . rfl

theorem joined_append {bound : Nat} (hsound : Sound sub (.operand l))
    (hcomplete : Complete sub (.operand l) bound) {used : List Lexeme} (rest : List Lexeme)
    {p : Formula} (hlen : used.length < bound)
    (hused : Derives (.joined l) (used.map Lexeme.token) p) (hrest : Stops (.operand l) rest) :
    joined l sub (used ++ rest) = some (extend l sub rest.length p rest) := by
  -- The grammar splits off the last operand, but the loop reads the first one first. So `rest` has
  -- to vary: the hypothesis is used for all but the last operand, which goes in front of `rest`.
  induction hn : used.length using Nat.strong_induction_on generalizing used rest p with
  | h n ih =>
    rw [derives_joined_iff] at hused
    rcases hused with hused | ⟨us, vs, q, r, htokens, rfl, hq, hr⟩
    . unfold joined
      rw [hcomplete used rest p hlen hused hrest]
    . obtain ⟨before, after, rfl, rfl, hafter⟩ := List.map_eq_append_iff.mp htokens
      obtain ⟨⟨token, offset⟩, after, rfl, rfl, rfl⟩ := List.map_eq_cons_iff.mp hafter
      rw [List.length_append, List.length_cons] at hlen hn
      have hstops : Stops (.operand l) (⟨.connective (.lattice l), offset⟩ :: (after ++ rest)) :=
        stops_connective (by cases l <;> decide) offset _
      have hstep := ih before.length (by omega) _ (by omega) hq hstops rfl
      rw [List.append_assoc, List.cons_append, hstep, List.length_cons, extend, if_pos rfl,
        hcomplete after rest r (by omega) hr hrest]
      congr 1
      apply extend_eq_of_le hsound
      . rw [List.length_append]
        omega
      . exact Nat.le_refl _

theorem complete_joined {bound : Nat} (hsound : Sound sub (.operand l))
    (hcomplete : Complete sub (.operand l) bound) : Complete (joined l sub) (.joined l) bound := by
  intro used rest p hlen hused hrest
  have hoperand : Stops (.operand l) rest := hrest.mono (by cases l <;> decide)
  rw [joined_append hsound hcomplete rest hlen hused hoperand, extend_eq_self hrest]

end Joined

section Implication

theorem sound_disjunction {inner : TokenReader} (h : Sound inner .implication) :
    Sound (disjunction inner) .disjunction := by
  apply sound_joined
  apply sound_joined
  exact sound_operand h

theorem complete_disjunction {inner : TokenReader} {bound : Nat} (hsound : Sound inner .implication)
    (hcomplete : Complete inner .implication bound) :
    Complete (disjunction inner) .disjunction (bound + 1) := by
  have hoperand := sound_operand hsound
  apply complete_joined (l := .or)
  . exact sound_joined hoperand
  . apply complete_joined (l := .and) hoperand
    exact complete_operand hcomplete

theorem sound_implication (depth : Nat) : Sound (implication depth) .implication := by
  induction depth with
  | zero =>
    intro ts p rest hread
    simp [implication] at hread
  | succ depth ih =>
    intro ts p rest hread
    unfold implication at hread
    split at hread
    . next q offset rest' hq =>
      obtain ⟨used, rfl, hused⟩ := sound_disjunction ih _ _ _ hq
      split at hread
      . next r rest'' hr =>
        obtain ⟨used', rfl, hused'⟩ := ih _ _ _ hr
        obtain ⟨rfl, rfl⟩ := by simpa using hread
        refine ⟨used ++ ⟨.connective .implies, offset⟩ :: used', by simp, ?_⟩
        rw [List.map_append]
        exact .implies hused hused'
      . obtain ⟨rfl, rfl⟩ := by simpa using hread
        exact ⟨used, rfl, .ofDisjunction hused⟩
    . obtain ⟨used, rfl, hused⟩ := sound_disjunction ih _ _ _ hread
      exact ⟨used, rfl, .ofDisjunction hused⟩

theorem complete_implication (depth : Nat) : Complete (implication depth) .implication depth := by
  induction depth with
  | zero =>
    intro used rest p hlen
    simp at hlen
  | succ depth ih =>
    have hdisjunction := complete_disjunction (sound_implication depth) ih
    intro used rest p hlen hused hrest
    generalize htokens : used.map Lexeme.token = ts at hused
    unfold implication
    cases hused with
    | ofDisjunction hused =>
      rw [← htokens] at hused
      rw [hdisjunction used rest p hlen hused (hrest.mono (by decide))]
      split
      . next offset rest' heq =>
        rw [Option.some.injEq, Prod.mk.injEq] at heq
        exact absurd (hrest .implies offset rest' heq.2) (by decide)
      . rfl
    | implies hp hq =>
      obtain ⟨before, after, rfl, rfl, hafter⟩ := List.map_eq_append_iff.mp htokens
      obtain ⟨⟨token, offset⟩, after, rfl, rfl, rfl⟩ := List.map_eq_cons_iff.mp hafter
      rw [List.length_append, List.length_cons] at hlen
      rw [List.append_assoc, List.cons_append,
        hdisjunction before _ _ (by omega) hp (stops_connective (by decide) offset _)]
      dsimp only
      rw [ih after rest _ (by omega) hq hrest]

end Implication

end Reader

theorem ofLexemes_eq_ok_iff {ts : List Lexeme} {p : Formula} :
    ofLexemes ts = .ok p ↔ Derives .implication (ts.map Lexeme.token) p := by
  constructor
  . intro h
    unfold ofLexemes at h
    split at h
    . next q hread =>
      obtain ⟨used, hts, hused⟩ := Reader.sound_implication _ _ _ _ hread
      rw [List.append_nil] at hts
      obtain rfl := by simpa using h
      rw [hts]
      exact hused
    . simp at h
    . simp at h
  . intro h
    have hread := Reader.complete_implication (ts.length + 1) ts [] p (by omega) h
      (by simp [Reader.Stops])
    rw [List.append_nil] at hread
    unfold ofLexemes
    rw [hread]

theorem ofText_eq_ok_of_splits {text : String} {ts : List Token} {p : Formula}
    (hsplits : Token.Splits text.toList ts) (hderives : Derives .implication ts p) :
    ofText text = .ok p := by
  have hscan := (Token.splits_iff.mp hsplits).1
  unfold ofText
  rw [ofLexemes_eq_ok_iff.mpr (hscan ▸ hderives)]

theorem exists_of_ofText_eq_ok {text : String} {p : Formula} (h : ofText text = .ok p) :
    ∃ ts, Token.Splits text.toList ts ∧ Derives .implication ts p := by
  unfold ofText at h
  split at h
  . next q hq =>
    obtain rfl := by simpa using h
    rw [ofLexemes_eq_ok_iff] at hq
    refine ⟨_, ?_, hq⟩
    rw [Token.splits_iff]
    exact ⟨rfl, hq.stray_not_mem⟩
  . simp at h

theorem ofText_eq_ok_iff (text : String) (p : Formula) :
    ofText text = .ok p
      ↔
    ∃ ts, Token.Splits text.toList ts ∧ Derives .implication ts p := by
  constructor
  . exact exists_of_ofText_eq_ok
  . rintro ⟨ts, hsplits, hderives⟩
    exact ofText_eq_ok_of_splits hsplits hderives

end ProofDesk.Formula
