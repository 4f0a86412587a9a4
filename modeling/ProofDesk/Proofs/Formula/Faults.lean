import ProofDesk.Proofs.Formula.Grammar

/-!
This module contains where the fault of a rejected text lies. The readers take as many lexemes as
the grammar allows, so the first lexeme that they leave starts where the longest accepted prefix of
the text ends.
-/

namespace ProofDesk

namespace Token

open Formula (byteLength byteLength_append)

variable {offset : Nat} {text : List Char} {lexemes : List Lexeme}

theorem utf8Size_of_isBlank {c : Char} (h : isBlank c) : c.utf8Size = 1 := by
  simp only [isBlank, Bool.or_eq_true, beq_iff_eq] at h
  rcases h with ((rfl | rfl) | rfl) | rfl <;> rfl

theorem EndsBefore.of_append {t : Token} {front back : List Char}
    (h : t.EndsBefore (front ++ back)) : t.EndsBefore front := by
  intro name d ht hd
  exact h name d ht (by simp [hd])

theorem EndsBefore.append {t : Token} {front : List Char} (h : t.EndsBefore front)
    (hne : front ≠ []) (back : List Char) : t.EndsBefore (front ++ back) := by
  intro name d ht hd
  obtain ⟨c, cs, rfl⟩ := List.exists_cons_of_ne_nil hne
  exact h name d ht hd

section Offsets

theorem Scans.le_offset (h : Scans offset text lexemes) : ∀ t ∈ lexemes, offset ≤ t.offset := by
  induction h with
  | nil => simp
  | blank hc h ih =>
    intro t ht
    have := ih t ht
    omega
  | token ht hend h ih =>
    intro t ht
    rcases List.mem_cons.mp ht with rfl | ht
    . exact Nat.le_refl _
    . have := ih t ht
      omega
  | stray hc => simp

theorem Scans.eq_nil_iff (h : Scans offset text lexemes) :
    lexemes = [] ↔ ∀ c ∈ text, isBlank c := by
  induction h with
  | nil => simp
  | blank hc h ih => simp [ih, hc]
  | token ht hend h ih =>
    obtain ⟨c, cs, rfl, hc⟩ := exists_of_spells ht
    simp [hc]
  | stray hc => simp [hc]

theorem Scans.head_offset {first : Lexeme} (h : Scans offset text (first :: lexemes)) :
    first.offset = offset + (text.takeWhile isBlank).length := by
  generalize hall : first :: lexemes = all at h
  induction h with
  | nil => simp at hall
  | blank hc h ih =>
    rw [ih hall, utf8Size_of_isBlank hc, List.takeWhile_cons_of_pos hc, List.length_cons]
    omega
  | token ht hend h ih =>
    obtain ⟨rfl, -⟩ := List.cons.inj hall
    obtain ⟨c, cs, rfl, hc⟩ := exists_of_spells ht
    rw [List.cons_append, List.takeWhile_cons_of_neg hc]
    rfl
  | stray hc =>
    obtain ⟨rfl, -⟩ := List.cons.inj hall
    rw [List.takeWhile_cons_of_neg hc]
    rfl

theorem Scans.exists_split {used rest : List Lexeme} {t : Lexeme}
    (h : Scans offset text (used ++ t :: rest)) (hused : .stray ∉ used.map Lexeme.token) :
    ∃ front back, text = front ++ back ∧ Splits front (used.map Lexeme.token)
      ∧ t.offset = offset + byteLength front := by
  generalize hall : used ++ t :: rest = all at h
  induction h generalizing used with
  | nil => simp at hall
  | @blank _ c _ _ hc h ih =>
    obtain ⟨front, back, rfl, hfront, hoffset⟩ := ih hused hall
    refine ⟨c :: front, back, rfl, .blank hc hfront, ?_⟩
    rw [hoffset, byteLength, Nat.add_assoc]
  | @token _ _ spelling rest' _ ht hend h ih =>
    cases used with
    | nil =>
      obtain ⟨rfl, -⟩ := List.cons.inj hall
      exact ⟨[], _, rfl, .nil, rfl⟩
    | cons first used =>
      obtain ⟨rfl, htail⟩ := List.cons.inj hall
      have hused' : .stray ∉ used.map Lexeme.token := by
        intro hmem
        exact hused (List.mem_cons_of_mem _ hmem)
      obtain ⟨front, back, rfl, hfront, hoffset⟩ := ih hused' htail
      refine ⟨spelling ++ front, back, (List.append_assoc ..).symm,
        .token ht hend.of_append hfront, ?_⟩
      rw [hoffset, byteLength_append, Nat.add_assoc]
  | stray hc =>
    cases used with
    | nil =>
      obtain ⟨rfl, -⟩ := List.cons.inj hall
      exact ⟨[], _, rfl, .nil, rfl⟩
    | cons first used => simp at hall

end Offsets

section Shape

def shape : Token → Token
  | word _ => word ""
  | t => t

theorem eq_of_shape_eq {t t' : Token} (h : t'.shape = t.shape) (ht : ∀ name, t ≠ .word name) :
    t' = t := by
  cases t <;> cases t' <;> simp_all [shape]

theorem exists_spells_append {t : Token} {spelling : List Char} (ht : Spells t spelling)
    (back : List Char) :
    ∃ t' more rest, back = more ++ rest ∧ t'.shape = t.shape ∧ Spells t' (spelling ++ more)
      ∧ t'.EndsBefore rest := by
  -- Every token goes on as far as it can when more text follows. Only a word can, and it stays a
  -- word.
  by_cases hword : ∃ name, t = .word name
  . obtain ⟨name, rfl⟩ := hword
    cases ht with
    | word c cs hc hcs =>
      refine ⟨.word (String.ofList (c :: (cs ++ back.takeWhile Char.isAlphanum))),
        back.takeWhile Char.isAlphanum, back.dropWhile Char.isAlphanum,
        List.takeWhile_append_dropWhile.symm, rfl, .word _ _ hc ?_, ?_⟩
      . intro d hd
        rcases List.mem_append.mp hd with hd | hd
        . exact hcs d hd
        . exact List.mem_takeWhile_imp hd
      . intro _ d _ hd
        simpa [hd] using List.head?_dropWhile_not Char.isAlphanum back
  . refine ⟨t, [], back, rfl, rfl, by simpa using ht, endsBefore_of_ne_word ?_⟩
    intro name hname
    exact hword ⟨name, hname⟩

theorem Splits.exists_scan_append {front : List Char} {ts : List Token} (h : Splits front ts)
    (offset : Nat) (back : List Char) :
    ∃ used rest, scan.go offset 0 (front ++ back) = used ++ rest
      ∧ (used.map Lexeme.token).map shape = ts.map shape
      ∧ ∀ t ∈ rest, offset + byteLength front ≤ t.offset := by
  induction h generalizing offset with
  | nil => exact ⟨[], _, rfl, rfl, (scans_go offset back).le_offset⟩
  | @blank c _ _ hc h ih =>
    obtain ⟨used, rest, hscan, hshape, hrest⟩ := ih (offset + c.utf8Size)
    refine ⟨used, rest, ?_, hshape, ?_⟩
    . rw [List.cons_append, scan.go_blank hc, hscan]
    . intro t ht
      rw [byteLength, ← Nat.add_assoc]
      exact hrest t ht
  | @token t spelling rest ts ht hend h ih =>
    by_cases hne : rest = []
    . subst hne
      obtain ⟨t', more, rest, rfl, hshape, ht', hend'⟩ := exists_spells_append ht back
      obtain rfl : (scan []).map Lexeme.token = ts := h.map_scan_go
      refine ⟨[⟨t', offset⟩], scan.go (offset + byteLength (spelling ++ more)) 0 rest, ?_, ?_, ?_⟩
      . rw [List.append_nil, ← List.append_assoc, scan.go_token offset ht' hend']
        rfl
      . simp [hshape, scan, scan.go]
      . intro later hlater
        have := (scans_go _ rest).le_offset later hlater
        rw [byteLength_append] at this
        rw [List.append_nil]
        omega
    . obtain ⟨used, later, hscan, hshape, hlater⟩ := ih (offset + byteLength spelling)
      refine ⟨⟨t, offset⟩ :: used, later, ?_, ?_, ?_⟩
      . rw [List.append_assoc, scan.go_token offset ht (hend.append hne back), hscan]
        rfl
      . simp [hshape]
      . intro t' ht'
        rw [byteLength_append, ← Nat.add_assoc]
        exact hlater t' ht'

end Shape

end Token

namespace Formula

section Shape

variable {ts us ts' : List Token}

theorem exists_cons_of_shape {t : Token} (ht : ∀ name, t ≠ .word name)
    (h : ts'.map Token.shape = (t :: us).map Token.shape) :
    ∃ back, ts' = t :: back ∧ back.map Token.shape = us.map Token.shape := by
  obtain ⟨t', back, rfl, ht', hback⟩ := List.map_eq_cons_iff.mp h
  rw [Token.eq_of_shape_eq ht' ht]
  exact ⟨back, rfl, hback⟩

theorem exists_append_of_shape {t : Token} (ht : ∀ name, t ≠ .word name)
    (h : ts'.map Token.shape = (ts ++ t :: us).map Token.shape) :
    ∃ front back, ts' = front ++ t :: back ∧ front.map Token.shape = ts.map Token.shape
      ∧ back.map Token.shape = us.map Token.shape := by
  rw [List.map_append] at h
  obtain ⟨front, back, rfl, hfront, hback⟩ := List.map_eq_append_iff.mp h
  obtain ⟨back, rfl, hus⟩ := exists_cons_of_shape ht hback
  exact ⟨front, back, rfl, hfront, hus⟩

theorem exists_derives_of_shape {name : String}
    (h : ts'.map Token.shape = [.word name].map Token.shape) : ∃ p, Derives .primary ts' p := by
  obtain ⟨t, rfl, ht⟩ := List.map_eq_singleton_iff.mp h
  cases t with
  | word name' => exact ⟨_, derives_ofWord name'⟩
  | _ => simp [Token.shape] at ht

theorem Derives.exists_of_shape {c : Category} {p : Formula}
    (h : Derives c ts p) (hshape : ts'.map Token.shape = ts.map Token.shape) :
    ∃ p', Derives c ts' p' := by
  induction h generalizing ts' with
  | ofDisjunction _ ih =>
    obtain ⟨p', h⟩ := ih hshape
    exact ⟨p', .ofDisjunction h⟩
  | implies _ _ ihp ihq =>
    obtain ⟨us, vs, rfl, hus, hvs⟩ := exists_append_of_shape (by simp) hshape
    obtain ⟨p', hp⟩ := ihp hus
    obtain ⟨q', hq⟩ := ihq hvs
    exact ⟨_, .implies hp hq⟩
  | ofConjunction _ ih =>
    obtain ⟨p', h⟩ := ih hshape
    exact ⟨p', .ofConjunction h⟩
  | or _ _ ihp ihq =>
    obtain ⟨us, vs, rfl, hus, hvs⟩ := exists_append_of_shape (by simp) hshape
    obtain ⟨p', hp⟩ := ihp hus
    obtain ⟨q', hq⟩ := ihq hvs
    exact ⟨_, .or hp hq⟩
  | ofNegation _ ih =>
    obtain ⟨p', h⟩ := ih hshape
    exact ⟨p', .ofNegation h⟩
  | and _ _ ihp ihq =>
    obtain ⟨us, vs, rfl, hus, hvs⟩ := exists_append_of_shape (by simp) hshape
    obtain ⟨p', hp⟩ := ihp hus
    obtain ⟨q', hq⟩ := ihq hvs
    exact ⟨_, .and hp hq⟩
  | ofPrimary _ ih =>
    obtain ⟨p', h⟩ := ih hshape
    exact ⟨p', .ofPrimary h⟩
  | not _ ih =>
    obtain ⟨us, rfl, hus⟩ := exists_cons_of_shape (by simp) hshape
    obtain ⟨p', h⟩ := ih hus
    exact ⟨_, .not h⟩
  | parens _ ih =>
    obtain ⟨us, vs, rfl, hus, hvs⟩ := exists_append_of_shape (by simp) hshape
    obtain ⟨us, rfl, hinner⟩ := exists_cons_of_shape (by simp) hus
    obtain ⟨p', h⟩ := ih hinner
    obtain rfl := List.map_eq_nil_iff.mp hvs
    exact ⟨_, .parens h⟩
  | true => exact exists_derives_of_shape hshape
  | false => exact exists_derives_of_shape hshape
  | var name hT hF => exact exists_derives_of_shape hshape

end Shape

namespace Reader

def Greedy (read : TokenReader) (c : Category) (bound : Nat) : Prop :=
  ∀ used rest p, used.length < bound → Derives c (used.map Lexeme.token) p →
    ∃ q rest', read (used ++ rest) = some (q, rest') ∧ rest'.length ≤ rest.length

theorem stops_negation (rest : List Lexeme) : Stops .negation rest := by
  intro k offset ts heq
  cases k with
  | implies => decide
  | lattice l => cases l <;> decide

theorem greedy_operand {inner : TokenReader} {bound : Nat}
    (h : Complete inner .implication bound) : Greedy (operand inner) .negation (bound + 1) := by
  intro used rest p hlen hused
  exact ⟨p, rest, complete_operand h used rest p hlen hused (stops_negation rest), Nat.le_refl _⟩

section Joined

variable {l : Lattice} {sub : TokenReader}

theorem length_extend_le (h : Sound sub (.operand l)) (fuel : Nat) (p : Formula)
    (ts : List Lexeme) : (extend l sub fuel p ts).2.length ≤ ts.length := by
  fun_induction extend l sub fuel p ts with
  | case2 fuel p offset rest q rest' hread ih =>
    have := h.length_lt hread
    rw [List.length_cons]
    omega
  | _ => exact Nat.le_refl _

theorem greedy_joined {bound : Nat} (hsound : Sound sub (.operand l))
    (hcomplete : Complete sub (.operand l) bound) (hgreedy : Greedy sub (.operand l) bound) :
    Greedy (joined l sub) (.joined l) bound := by
  intro used rest p hlen hused
  rw [derives_joined_iff] at hused
  rcases hused with hused | ⟨us, vs, q, r, htokens, rfl, hq, hr⟩
  . obtain ⟨q, rest', hread, hle⟩ := hgreedy used rest p hlen hused
    have := length_extend_le hsound rest'.length q rest'
    refine ⟨(extend l sub rest'.length q rest').1, _, ?_, Nat.le_trans this hle⟩
    unfold joined
    rw [hread]
  . -- The loop is in front of the last operand, which it reads greedily.
    obtain ⟨before, after, rfl, rfl, hafter⟩ := List.map_eq_append_iff.mp htokens
    obtain ⟨⟨token, offset⟩, after, rfl, rfl, rfl⟩ := List.map_eq_cons_iff.mp hafter
    rw [List.length_append, List.length_cons] at hlen
    have hstops : Stops (.operand l) (⟨.connective (.lattice l), offset⟩ :: (after ++ rest)) :=
      stops_connective (by cases l <;> decide) offset _
    obtain ⟨r', rest', hread, hle⟩ := hgreedy after rest r (by omega) hr
    have := length_extend_le hsound (after ++ rest).length (.latt l q r') rest'
    refine ⟨(extend l sub (after ++ rest).length (.latt l q r') rest').1, _, ?_,
      Nat.le_trans this hle⟩
    rw [List.append_assoc, List.cons_append,
      joined_append hsound hcomplete _ (by omega) hq hstops, List.length_cons, extend, if_pos rfl,
      hread]

theorem greedy_disjunction {inner : TokenReader} {bound : Nat} (hsound : Sound inner .implication)
    (hcomplete : Complete inner .implication bound) :
    Greedy (disjunction inner) .disjunction (bound + 1) := by
  have hoperand := sound_operand hsound
  have hoperand' := complete_operand hcomplete
  apply greedy_joined (l := .or)
  . exact sound_joined hoperand
  . exact complete_joined (l := .and) hoperand hoperand'
  . exact greedy_joined (l := .and) hoperand hoperand' (greedy_operand hcomplete)

end Joined

theorem greedy_implication (depth : Nat) : Greedy (implication depth) .implication depth := by
  induction depth with
  | zero =>
    intro used rest p hlen
    simp at hlen
  | succ depth ih =>
    have hsound := sound_implication depth
    have hcomplete := complete_disjunction hsound (complete_implication depth)
    have hgreedy := greedy_disjunction hsound (complete_implication depth)
    intro used rest p hlen hused
    generalize htokens : used.map Lexeme.token = ts at hused
    unfold implication
    cases hused with
    | ofDisjunction hused =>
      rw [← htokens] at hused
      obtain ⟨q, rest', hread, hle⟩ := hgreedy used rest p hlen hused
      rw [hread]
      split
      . next q offset rest' heq =>
        obtain ⟨rfl, rfl⟩ := by simpa using heq
        rw [List.length_cons] at hle
        split
        . next r rest'' hr =>
          have := hsound.length_lt hr
          exact ⟨_, _, rfl, by omega⟩
        . exact ⟨_, _, rfl, by simpa using hle⟩
      . exact ⟨_, _, rfl, hle⟩
    | implies hp hq =>
      obtain ⟨before, after, rfl, rfl, hafter⟩ := List.map_eq_append_iff.mp htokens
      obtain ⟨⟨token, offset⟩, after, rfl, rfl, rfl⟩ := List.map_eq_cons_iff.mp hafter
      rw [List.length_append, List.length_cons] at hlen
      obtain ⟨q, rest', hread, hle⟩ := ih after rest _ (by omega) hq
      rw [List.append_assoc, List.cons_append,
        hcomplete before _ _ (by omega) hp (stops_connective (by decide) offset _)]
      dsimp only
      rw [hread]
      exact ⟨_, _, rfl, hle⟩

end Reader

section Faults

inductive FaultIn (ts : List Lexeme) : SyntaxFault → Prop where
  | none (h : ∀ used rest p, ts = used ++ rest → ¬Derives .implication (used.map Lexeme.token) p) :
      FaultIn ts (faultAt ts)
  | after {used rest : List Lexeme} {t : Lexeme} {p : Formula} (hts : ts = used ++ t :: rest)
      (hused : Derives .implication (used.map Lexeme.token) p)
      (h : ∀ used' rest' p', ts = used' ++ rest' →
        Derives .implication (used'.map Lexeme.token) p' → used'.length ≤ used.length) :
      FaultIn ts (.unexpected t.offset)

theorem faultIn_of_ofLexemes_eq_error {ts : List Lexeme} {fault : SyntaxFault}
    (h : ofLexemes ts = .error fault) : FaultIn ts fault := by
  have hgreedy : ∀ used rest p, ts = used ++ rest →
      Derives .implication (used.map Lexeme.token) p →
      ∃ q rest', Reader.implication (ts.length + 1) ts = some (q, rest')
        ∧ rest'.length ≤ rest.length := by
    rintro used rest p rfl hused
    have hlen : used.length < (used ++ rest).length + 1 := by
      rw [List.length_append]
      omega
    exact Reader.greedy_implication _ used rest p hlen hused
  unfold ofLexemes at h
  split at h
  . simp at h
  . next p rest hne hread =>
    obtain rfl := by simpa using h
    obtain ⟨used, hts, hused⟩ := Reader.sound_implication _ _ _ _ hread
    obtain ⟨t, rest, rfl⟩ := List.exists_cons_of_ne_nil (l := rest) (by simpa using hne)
    refine .after hts hused ?_
    intro used' rest' p' hts' hused'
    obtain ⟨q, left, hread', hle⟩ := hgreedy used' rest' p' hts' hused'
    rw [hread] at hread'
    obtain ⟨-, rfl⟩ := by simpa using hread'
    have hlen := congrArg List.length (hts.symm.trans hts')
    rw [List.length_append, List.length_append] at hlen
    omega
  . next hread =>
    obtain rfl := by simpa using h
    refine .none ?_
    intro used rest p hts hused
    obtain ⟨q, left, hread', -⟩ := hgreedy used rest p hts hused
    simp [hread] at hread'

def Accepted (text : String) : Prop :=
  ∃ p, ofText text = .ok p

structure LongestAccepted (text front : String) : Prop where
  isPrefix : front.toList <+: text.toList
  accepted : Accepted front
  longest : ∀ other : String, other.toList <+: text.toList → Accepted other →
    other.utf8ByteSize ≤ front.utf8ByteSize

/--
The place of the fault in a text that is rejected.
-/
inductive FaultyAt (text : String) : Nat → Prop where
  | none (h : ∀ front : String, front.toList <+: text.toList → ¬Accepted front) :
      FaultyAt text (text.toList.takeWhile Token.isBlank).length
  | after {front : String} (h : LongestAccepted text front) : FaultyAt text front.utf8ByteSize

theorem Accepted.exists_derives {text front : String} (h : Accepted front)
    (hfront : front.toList <+: text.toList) :
    ∃ used rest p, Token.scan text.toList = used ++ rest
      ∧ Derives .implication (used.map Lexeme.token) p
      ∧ ∀ t ∈ rest, front.utf8ByteSize ≤ t.offset := by
  obtain ⟨p, hp⟩ := h
  obtain ⟨ts, hsplits, hderives⟩ := exists_of_ofText_eq_ok hp
  obtain ⟨back, hback⟩ := hfront
  obtain ⟨used, rest, hscan, hshape, hrest⟩ := hsplits.exists_scan_append 0 back
  obtain ⟨p', hp'⟩ := hderives.exists_of_shape hshape
  refine ⟨used, rest, p', ?_, hp', ?_⟩
  . rw [← hback]
    exact hscan
  . intro t ht
    have := hrest t ht
    rw [← utf8ByteSize_ofList, String.ofList_toList] at this
    omega

theorem ofLexemes_of_ofText_eq_error {text : String} {e : SyntaxError}
    (h : ofText text = .error e) :
    e.text = text ∧ ofLexemes (Token.scan text.toList) = .error e.fault := by
  unfold ofText at h
  split at h
  . simp at h
  . next fault hfault =>
    obtain rfl := by simpa using h
    exact ⟨rfl, hfault⟩

theorem message_unexpected_ne (offset : Nat) :
    (SyntaxFault.unexpected offset).message ≠ SyntaxFault.endOfText.message := by
  intro h
  have h : "unexpected input at offset ".toList ++ (toString offset).toList
      = "unexpected end of input".toList := by
    rw [← String.toList_append]
    exact congrArg String.toList h
  -- The two texts differ in the twelfth character.
  have h := congrArg (List.take 12) h
  rw [List.take_append_of_le_length (by decide)] at h
  revert h
  decide

theorem faultyAt_of_faultIn {text : String} {fault : SyntaxFault}
    (h : FaultIn (Token.scan text.toList) fault) :
    (fault = .endOfText ∧ ∀ c ∈ text.toList, Token.isBlank c)
      ∨ ∃ offset, fault = .unexpected offset ∧ FaultyAt text offset
        ∧ ¬∀ c ∈ text.toList, Token.isBlank c := by
  have hscans : Token.Scans 0 text.toList (Token.scan text.toList) := Token.scans_go 0 text.toList
  cases h with
  | none h =>
    have hnone : ∀ front : String, front.toList <+: text.toList → ¬Accepted front := by
      intro front hfront haccepted
      obtain ⟨used, rest, p, hscan, hused, -⟩ := haccepted.exists_derives hfront
      exact h used rest p hscan hused
    cases hscan : Token.scan text.toList with
    | nil => exact .inl ⟨rfl, hscans.eq_nil_iff.mp hscan⟩
    | cons first rest =>
      rw [hscan] at hscans
      refine .inr ⟨first.offset, rfl, ?_, ?_⟩
      . rw [hscans.head_offset, Nat.zero_add]
        exact .none hnone
      . rw [← hscans.eq_nil_iff]
        simp
  | @after used rest t p hts hused h =>
    rw [hts] at hscans
    obtain ⟨front, back, htext, hfront, hoffset⟩ := hscans.exists_split hused.stray_not_mem
    refine .inr ⟨t.offset, rfl, ?_, ?_⟩
    . rw [hoffset, Nat.zero_add, ← utf8ByteSize_ofList]
      refine .after ⟨?_, ⟨p, ofText_eq_ok_of_splits (by simpa using hfront) hused⟩, ?_⟩
      . simp [htext]
      . intro other hother haccepted
        obtain ⟨used', rest', p', hts', hused', hrest'⟩ := haccepted.exists_derives hother
        have hle := h used' rest' p' hts' hused'
        have ht : t ∈ rest' := by
          rcases List.append_eq_append_iff.mp (hts.symm.trans hts') with
            ⟨more, rfl, hrest⟩ | ⟨more, -, rfl⟩
          . rw [List.length_append] at hle
            obtain rfl := List.length_eq_zero_iff.mp (by omega : more.length = 0)
            rw [List.nil_append] at hrest
            exact hrest ▸ List.mem_cons_self
          . simp
        rw [utf8ByteSize_ofList, ← Nat.zero_add (byteLength front), ← hoffset]
        exact hrest' t ht
    . rw [← hscans.eq_nil_iff]
      simp

/--
**Faults**: a rejected text is reported as it is. Its fault is the end of the text if there is
nothing but blanks. Else the fault lies where the longest accepted prefix ends, or behind the
leading blanks if no prefix is accepted.
-/
theorem fault_of_ofText_eq_error {text : String} {e : SyntaxError} (h : ofText text = .error e) :
    e.text = text
      ∧ (e.fault.message = "unexpected end of input" ↔ ∀ c ∈ text.toList, Token.isBlank c)
      ∧ ((∃ c ∈ text.toList, ¬Token.isBlank c) →
        ∃ offset, e.fault = .unexpected offset
          ∧ e.fault.message = s!"unexpected input at offset {offset}" ∧ FaultyAt text offset) := by
  obtain ⟨htext, hfault⟩ := ofLexemes_of_ofText_eq_error h
  refine ⟨htext, ?_⟩
  rcases faultyAt_of_faultIn (faultIn_of_ofLexemes_eq_error hfault) with
    ⟨hend, hblank⟩ | ⟨offset, hoffset, hfaulty, hblank⟩
  . rw [hend]
    refine ⟨iff_of_true rfl hblank, ?_⟩
    rintro ⟨c, hc, hne⟩
    exact absurd (hblank c hc) hne
  . rw [hoffset]
    exact ⟨iff_of_false (message_unexpected_ne offset) hblank,
      fun _ => ⟨offset, rfl, rfl, hfaulty⟩⟩

theorem unfinished_fault :
    ofText "P implies (Q and" = .error ⟨"P implies (Q and", .unexpected 2⟩
      ∧ FaultyAt "P implies (Q and" 2 := by
  have h : ofText "P implies (Q and" = .error ⟨"P implies (Q and", .unexpected 2⟩ := by rfl
  obtain ⟨-, -, hfault⟩ := fault_of_ofText_eq_error h
  obtain ⟨offset, hoffset, -, hfaulty⟩ := hfault ⟨'P', by decide, by decide⟩
  obtain rfl := SyntaxFault.unexpected.inj hoffset
  exact ⟨h, hfaulty⟩

end Faults

end Formula

end ProofDesk
