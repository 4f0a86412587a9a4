import ProofDesk.Label

/-!
This module contains the theory of the proof order of labels and of the scope of subproofs: the
order is total, the labels inside a subproof stand together directly before its header, and a
visible label stands earlier without being inside.
-/

namespace ProofDesk.Label

def Within (bound : Nat) (l : Label) : Prop :=
  l.parts ≠ [] ∧ ∀ n ∈ l.parts, 0 < n ∧ n ≤ bound

instance (bound : Nat) (l : Label) : Decidable (l.Within bound) :=
  inferInstanceAs (Decidable (l.parts ≠ [] ∧ ∀ n ∈ l.parts, 0 < n ∧ n ≤ bound))

abbrev Proper (l : Label) : Prop :=
  l.Within maxPart

-- A valid label can be moved on by one without reaching the largest number.
abbrev Valid (l : Label) : Prop :=
  l.Within (maxPart - 1)

theorem lt_maxPart_iff {n : Nat} : n < maxPart ↔ n ≤ maxPart - 1 := by
  unfold maxPart
  omega

theorem Within.mono {bound bound' : Nat} {l : Label} (hle : bound ≤ bound') (hl : l.Within bound) :
    l.Within bound' :=
  ⟨hl.1, fun n hn => ⟨(hl.2 n hn).1, Nat.le_trans (hl.2 n hn).2 hle⟩⟩

@[simp]
theorem mk_parts (l : Label) : (⟨l.parts⟩ : Label) = l := by
  rfl

theorem eq_of_parts {a b : Label} (h : a.parts = b.parts) : a = b := by
  rw [← mk_parts a, h]

section Order

@[simp]
theorem not_before_of_nil (b : Label) : before ⟨[]⟩ b = false := by
  obtain ⟨bs⟩ := b
  cases bs <;> rfl

@[simp]
theorem before_nil (a : Nat) (as : List Nat) : before ⟨a :: as⟩ ⟨[]⟩ = true := by
  rfl

@[simp]
theorem before_cons_cons (a b : Nat) (as bs : List Nat) :
    before ⟨a :: as⟩ ⟨b :: bs⟩ = true ↔ a < b ∨ a = b ∧ before ⟨as⟩ ⟨bs⟩ = true := by
  simp [before, compare, compare.go, Ordering.then_eq_lt, Nat.compare_eq_lt]

theorem before_irrefl (a : Label) : a.before a = false := by
  obtain ⟨as⟩ := a
  induction as with
  | nil => rfl
  | cons a as ih => simp [← Bool.not_eq_true, ih]

theorem before_trans {a b c : Label} (hab : a.before b) (hbc : b.before c) : a.before c := by
  obtain ⟨as⟩ := a
  obtain ⟨bs⟩ := b
  obtain ⟨cs⟩ := c
  induction as generalizing bs cs with
  | nil => simp at hab
  | cons a as ih =>
    cases bs with
    | nil => simp at hbc
    | cons b bs =>
      cases cs with
      | nil => simp
      | cons c cs =>
        rw [before_cons_cons] at *
        grind

theorem before_asymm {a b : Label} (h : a.before b) : b.before a = false := by
  rw [← Bool.not_eq_true]
  intro h'
  have := before_trans h h'
  simp [before_irrefl] at this

theorem before_or_eq_or_before (a b : Label) : a.before b ∨ a = b ∨ b.before a := by
  obtain ⟨as⟩ := a
  obtain ⟨bs⟩ := b
  induction as generalizing bs with
  | nil => cases bs <;> simp
  | cons a as ih =>
    cases bs with
    | nil => simp
    | cons b bs =>
      simp only [before_cons_cons, mk.injEq, List.cons.injEq]
      have := ih bs
      simp only [mk.injEq] at this
      grind

end Order

section Scope

@[simp]
theorem not_isInside_of_nil (h : Label) : isInside ⟨[]⟩ h = false := by
  rfl

@[simp]
theorem isInside_nil (a : Nat) (as : List Nat) : isInside ⟨a :: as⟩ ⟨[]⟩ = true := by
  rfl

@[simp]
theorem isInside_cons_cons (a b : Nat) (as bs : List Nat) :
    isInside ⟨a :: as⟩ ⟨b :: bs⟩ = true ↔ a = b ∧ isInside ⟨as⟩ ⟨bs⟩ = true := by
  simp [isInside, isInside.go]

@[simp]
theorem not_visibleAt_of_nil (here : Label) : visibleAt ⟨[]⟩ here = false := by
  rfl

@[simp]
theorem not_visibleAt_nil (l : Label) : visibleAt l ⟨[]⟩ = false := by
  obtain ⟨as⟩ := l
  cases as <;> rfl

@[simp]
theorem visibleAt_cons_cons (a b : Nat) (as bs : List Nat) :
    visibleAt ⟨a :: as⟩ ⟨b :: bs⟩ = true
      ↔
    a < b ∧ as = [] ∨ a = b ∧ visibleAt ⟨as⟩ ⟨bs⟩ = true := by
  simp only [visibleAt, visibleAt.go]
  split
  . simp_all
  . simp_all

@[simp]
theorem child_cons (a k : Nat) (as : List Nat) :
    child ⟨a :: as⟩ k = ⟨a :: (child ⟨as⟩ k).parts⟩ := by
  rfl

theorem before_of_isInside {l h : Label} (hin : l.isInside h) : l.before h := by
  obtain ⟨as⟩ := l
  obtain ⟨bs⟩ := h
  induction as generalizing bs with
  | nil => simp at hin
  | cons a as ih =>
    cases bs with
    | nil => simp
    | cons b bs =>
      simp only [isInside_cons_cons] at hin
      simp [hin.1, ih bs hin.2]

theorem before_of_visibleAt {l here : Label} (hv : l.visibleAt here) : l.before here := by
  obtain ⟨as⟩ := l
  obtain ⟨bs⟩ := here
  induction as generalizing bs with
  | nil => simp at hv
  | cons a as ih =>
    cases bs with
    | nil => simp at hv
    | cons b bs =>
      simp only [visibleAt_cons_cons] at hv
      simp only [before_cons_cons]
      cases hv with
      | inl hlt => exact .inl hlt.1
      | inr heq => exact .inr ⟨heq.1, ih bs heq.2⟩

theorem isInside_child (l : Label) (k : Nat) : (l.child k).isInside l := by
  obtain ⟨as⟩ := l
  induction as with
  | nil => rfl
  | cons a as ih => simpa using ih

theorem isInside_of_before_of_before {a b h : Label} (ha : a.isInside h) (hab : a.before b)
    (hbh : b.before h) : b.isInside h := by
  obtain ⟨as⟩ := a
  obtain ⟨bs⟩ := b
  obtain ⟨hs⟩ := h
  induction hs generalizing as bs with
  | nil => cases bs <;> simp at hbh ⊢
  | cons h hs ih =>
    cases as with
    | nil => simp at ha
    | cons a as =>
      cases bs with
      | nil => simp at hbh
      | cons b bs =>
        simp only [isInside_cons_cons, before_cons_cons] at *
        grind

theorem before_of_before_of_isInside {l h x : Label} (hl : l.before h)
    (hout : l.isInside h = false) (hx : x.isInside h) : l.before x := by
  rcases before_or_eq_or_before l x with hlt | rfl | hgt
  . exact hlt
  . simp [hx] at hout
  . simp [isInside_of_before_of_before hx hgt hl] at hout

theorem not_isInside_of_visibleAt {l here : Label} (h : l.visibleAt here) :
    l.isInside here = false := by
  rw [← Bool.not_eq_true]
  obtain ⟨as⟩ := l
  obtain ⟨bs⟩ := here
  induction as generalizing bs with
  | nil => simp
  | cons a as ih =>
    cases bs with
    | nil => simp at h
    | cons b bs =>
      simp only [visibleAt_cons_cons, isInside_cons_cons] at *
      grind

theorem isInside_of_visibleAt {l here h : Label} (hv : l.visibleAt here) (hin : l.isInside h) :
    here.isInside h := by
  obtain ⟨as⟩ := l
  obtain ⟨bs⟩ := here
  obtain ⟨hs⟩ := h
  induction as generalizing bs hs with
  | nil => simp at hv
  | cons a as ih =>
    cases bs with
    | nil => simp at hv
    | cons b bs =>
      cases hs with
      | nil => simp
      | cons h hs =>
        simp only [visibleAt_cons_cons, isInside_cons_cons] at *
        cases hv with
        | inl hlt => simp [hlt.2] at hin
        | inr heq => exact ⟨heq.1 ▸ hin.1, ih bs heq.2 hs hin.2⟩

theorem isInside_child_iff {l h : Label} {k : Nat} :
    (l.child k).isInside h ↔ l = h ∨ l.isInside h := by
  obtain ⟨as⟩ := l
  obtain ⟨hs⟩ := h
  induction as generalizing hs with
  | nil =>
    cases hs with
    | nil => simp [child]
    | cons h hs => simp [child]
  | cons a as ih =>
    cases hs with
    | nil => simp
    | cons h hs =>
      have := ih hs
      simp only [child_cons, isInside_cons_cons, mk_parts, mk.injEq, List.cons.injEq] at *
      grind

theorem isInside_trans {a b c : Label} (hab : a.isInside b) (hbc : b.isInside c) :
    a.isInside c := by
  obtain ⟨as⟩ := a
  obtain ⟨bs⟩ := b
  obtain ⟨cs⟩ := c
  induction as generalizing bs cs with
  | nil => simp at hab
  | cons a as ih =>
    cases bs with
    | nil => simp at hbc
    | cons b bs =>
      cases cs with
      | nil => simp
      | cons c cs =>
        simp only [isInside_cons_cons] at *
        exact ⟨hab.1.trans hbc.1, ih bs hab.2 cs hbc.2⟩

theorem isInside_irrefl (l : Label) : l.isInside l = false := by
  rw [← Bool.not_eq_true]
  intro h
  simpa [before_irrefl] using before_of_isInside h

theorem eq_or_isInside_or_isInside {l a b : Label} (ha : l.isInside a) (hb : l.isInside b) :
    a = b ∨ a.isInside b ∨ b.isInside a := by
  obtain ⟨ls⟩ := l
  obtain ⟨as⟩ := a
  obtain ⟨bs⟩ := b
  induction ls generalizing as bs with
  | nil => simp at ha
  | cons l ls ih =>
    cases as with
    | nil =>
      cases bs with
      | nil => exact .inl rfl
      | cons b bs => exact .inr (.inr (isInside_nil b bs))
    | cons a as =>
      cases bs with
      | nil => exact .inr (.inl (isInside_nil a as))
      | cons b bs =>
        simp only [isInside_cons_cons, mk.injEq, List.cons.injEq] at *
        obtain ⟨rfl, ha⟩ := ha
        obtain ⟨rfl, hb⟩ := hb
        simpa using ih as ha bs hb

theorem before_child_of_before {l h : Label} (hl : l.before h) (hin : l.isInside h = false)
    (k : Nat) : l.before (h.child k) :=
  before_of_before_of_isInside hl hin (isInside_child h k)

theorem child_before_child (l : Label) {j k : Nat} (h : j < k) :
    (l.child j).before (l.child k) := by
  obtain ⟨ls⟩ := l
  induction ls with
  | nil => simpa [child] using h
  | cons a as ih => simpa using ih

theorem child_ne (l : Label) (k : Nat) : l.child k ≠ l := by
  intro h
  have := isInside_child l k
  simp [h, isInside_irrefl] at this

theorem child_injective {a b : Label} {j k : Nat} (h : a.child j = b.child k) : a = b ∧ j = k := by
  have hparts : a.parts ++ [j] = b.parts ++ [k] := congrArg parts h
  obtain ⟨hab, hjk⟩ := List.append_inj' hparts rfl
  exact ⟨eq_of_parts hab, by simpa using hjk⟩

theorem depth_lt_of_isInside {l h : Label} (hin : l.isInside h) : h.depth < l.depth := by
  obtain ⟨as⟩ := l
  obtain ⟨hs⟩ := h
  induction as generalizing hs with
  | nil => simp at hin
  | cons a as ih =>
    cases hs with
    | nil => simp [depth]
    | cons h hs =>
      have := ih hs (isInside_cons_cons .. |>.mp hin).2
      simpa [depth] using this

theorem eq_of_isInside_of_depth_eq {l a b : Label} (ha : l.isInside a) (hb : l.isInside b)
    (hdepth : a.depth = b.depth) : a = b := by
  rcases eq_or_isInside_or_isInside ha hb with heq | hin | hin
  . exact heq
  . have := depth_lt_of_isInside hin
    omega
  . have := depth_lt_of_isInside hin
    omega

theorem exists_isInside_of_lt_depth {l : Label} {k : Nat} (h : k < l.depth) :
    ∃ header, l.isInside header ∧ header.depth = k := by
  obtain ⟨ls⟩ := l
  induction ls generalizing k with
  | nil => simp [depth] at h
  | cons n ls ih =>
    cases k with
    | zero => exact ⟨⟨[]⟩, by simp, rfl⟩
    | succ k =>
      obtain ⟨⟨hs⟩, hin, hk⟩ := ih (by simpa [depth] using h)
      exact ⟨⟨n :: hs⟩, by simpa using hin, by simpa [depth] using hk⟩

theorem exists_eq_child_iff {l h : Label} :
    (∃ k, l = h.child k) ↔ l.isInside h ∧ l.depth = h.depth + 1 := by
  constructor
  . rintro ⟨k, rfl⟩
    exact ⟨isInside_child h k, by simp [depth, child]⟩
  . rintro ⟨hin, hd⟩
    obtain ⟨as⟩ := l
    obtain ⟨hs⟩ := h
    induction as generalizing hs with
    | nil => simp at hin
    | cons a as ih =>
      cases hs with
      | nil => exact ⟨a, by simp_all [depth, child]⟩
      | cons h hs =>
        simp only [isInside_cons_cons] at hin
        obtain ⟨k, hk⟩ := ih hs hin.2 (by simpa [depth] using hd)
        exact ⟨k, by simp [hin.1, ← hk]⟩

theorem Within.child {bound k : Nat} {l : Label} (hl : l.Within bound) (hk : 0 < k)
    (hm : k ≤ bound) : (l.child k).Within bound := by
  constructor
  . simp [Label.child]
  . intro n hn
    simp only [Label.child, List.mem_append, List.mem_singleton] at hn
    cases hn with
    | inl hn => exact hl.2 n hn
    | inr hn => exact hn ▸ ⟨hk, hm⟩

end Scope

end ProofDesk.Label
