import ProofDesk.Proofs.Label.Order

/-!
This module contains the theory of renumbering. Labels are moved up to make room for lines and down
after a line has been taken out. Moving up keeps order and scope. So does moving down, unless the
line that was taken out and the one after it both have lines inside them.
-/

namespace ProofDesk.Label

section Shift

def moveFrom (f : Nat → Nat) (pos l : Label) : Label :=
  ⟨go pos.parts l.parts⟩
where
  go : List Nat → List Nat → List Nat
    | [n], m :: ms => if n < m ∨ n = m ∧ ms = [] then f m :: ms else m :: ms
    | n :: ns, m :: ms => if n = m then m :: go ns ms else m :: ms
    | _, ms => ms

theorem movePart_ofNat {m k : Nat} (h : movePart m k < maxPart) : movePart m k = m + k := by
  unfold movePart at *
  omega

theorem movePart_of_le {m k : Nat} (h : m + k ≤ maxPart) : movePart m k = m + k := by
  unfold movePart
  omega

theorem movePart_neg {m k : Nat} (h : m ≤ maxPart) : movePart m (-k) = m - k := by
  unfold movePart
  omega

variable (f : Nat → Nat)

@[simp]
theorem moveFrom_nil (l : Label) : moveFrom f ⟨[]⟩ l = l := by
  obtain ⟨ms⟩ := l
  cases ms <;> rfl

@[simp]
theorem moveFrom_of_nil (pos : Label) : moveFrom f pos ⟨[]⟩ = ⟨[]⟩ := by
  obtain ⟨ns⟩ := pos
  match ns with
  | [] => rfl
  | [n] => rfl
  | n :: n' :: ns => rfl

theorem moveFrom_singleton (m n : Nat) (ms : List Nat) :
    moveFrom f ⟨[n]⟩ ⟨m :: ms⟩ = if n < m ∨ n = m ∧ ms = [] then ⟨f m :: ms⟩ else ⟨m :: ms⟩ := by
  simp only [moveFrom, moveFrom.go]
  split <;> rfl

theorem moveFrom_cons_cons (m n n' : Nat) (ms ns : List Nat) :
    moveFrom f ⟨n :: n' :: ns⟩ ⟨m :: ms⟩
      =
    if n = m then ⟨m :: (moveFrom f ⟨n' :: ns⟩ ⟨ms⟩).parts⟩ else ⟨m :: ms⟩ := by
  simp only [moveFrom, moveFrom.go]
  split <;> rfl

theorem shift_eq_moveFrom (l pos : Label) (delta : Int) :
    l.shift pos delta = moveFrom (movePart · delta) pos l := by
  obtain ⟨ms⟩ := l
  obtain ⟨ns⟩ := pos
  induction ns generalizing ms with
  | nil => cases ms <;> rfl
  | cons n ns ih =>
    cases ms with
    | nil => cases ns <;> rfl
    | cons m ms =>
      cases ns with
      | nil =>
        rw [moveFrom_singleton]
        simp only [shift, shift.go]
        grind
      | cons n' ns =>
        rw [moveFrom_cons_cons]
        have := ih ms
        simp only [shift, shift.go] at *
        grind

theorem moveFrom_of_before {l pos : Label} (h : l.before pos) : moveFrom f pos l = l := by
  obtain ⟨ms⟩ := l
  obtain ⟨ns⟩ := pos
  induction ns generalizing ms with
  | nil => simp
  | cons n ns ih =>
    cases ms with
    | nil => simp
    | cons m ms =>
      simp only [before_cons_cons] at h
      cases ns with
      | nil =>
        rw [moveFrom_singleton]
        grind [not_before_of_nil]
      | cons n' ns =>
        rw [moveFrom_cons_cons]
        grind

@[simp]
theorem depth_moveFrom (l pos : Label) : (moveFrom f pos l).depth = l.depth := by
  obtain ⟨ms⟩ := l
  obtain ⟨ns⟩ := pos
  induction ns generalizing ms with
  | nil => simp
  | cons n ns ih =>
    cases ms with
    | nil => simp
    | cons m ms =>
      cases ns with
      | nil =>
        rw [moveFrom_singleton]
        split <;> rfl
      | cons n' ns =>
        rw [moveFrom_cons_cons]
        split
        . simpa [depth] using ih ms
        . rfl

@[simp]
theorem moveFrom_parts_eq_nil (l pos : Label) : (moveFrom f pos l).parts = [] ↔ l.parts = [] := by
  have := depth_moveFrom f l pos
  unfold depth at this
  rw [← List.length_eq_zero_iff, this, List.length_eq_zero_iff]

theorem moveFrom_isInside {l pos h : Label} (hne : h ≠ pos) (hin : l.isInside h) :
    (moveFrom f pos l).isInside (moveFrom f pos h) := by
  obtain ⟨ns⟩ := pos
  obtain ⟨ms⟩ := l
  obtain ⟨hs⟩ := h
  induction ns generalizing ms hs with
  | nil => simpa using hin
  | cons n ns ih =>
    cases ms with
    | nil => simp at hin
    | cons m ms =>
      cases hs with
      | nil =>
        cases ns with
        | nil =>
          rw [moveFrom_singleton]
          split <;> simp
        | cons n' ns =>
          rw [moveFrom_cons_cons]
          split <;> simp
      | cons h hs =>
        cases ns with
        | nil =>
          have : hs = [] → ms ≠ [] := by
            rintro rfl rfl
            simp at hin
          simp only [moveFrom_singleton, isInside_cons_cons, ne_eq, mk.injEq,
            List.cons.injEq] at *
          split <;> split <;> simp only [isInside_cons_cons]
          all_goals grind [not_isInside_of_nil]
        | cons n' ns =>
          simp only [moveFrom_cons_cons, isInside_cons_cons, ne_eq, mk.injEq, List.cons.injEq] at *
          split <;> split <;> simp only [isInside_cons_cons, mk_parts]
          all_goals grind

theorem moveFrom_of_not_isInside {l pos h : Label} (hpos : pos.isInside h)
    (hl : l.isInside h = false) : moveFrom f pos l = l := by
  rw [← Bool.not_eq_true] at hl
  obtain ⟨ns⟩ := pos
  obtain ⟨ms⟩ := l
  obtain ⟨hs⟩ := h
  induction hs generalizing ns ms with
  | nil =>
    cases ms with
    | nil => simp
    | cons m ms => simp at hl
  | cons h hs ih =>
    cases ns with
    | nil => simp
    | cons n ns =>
      cases ms with
      | nil => simp
      | cons m ms =>
        cases ns with
        | nil => simp at hpos
        | cons n' ns =>
          simp only [isInside_cons_cons] at hpos hl
          rw [moveFrom_cons_cons]
          split
          . next hm =>
            rw [ih (n' :: ns) ms hpos.2 (by grind)]
          . rfl

theorem forall_parts_moveFrom {motive : Nat → Prop} {l : Label}
    (h : ∀ m ∈ l.parts, motive m ∧ motive (f m)) (pos : Label) :
    ∀ n ∈ (moveFrom f pos l).parts, motive n := by
  obtain ⟨ls⟩ := l
  obtain ⟨ns⟩ := pos
  have hsame : ∀ n ∈ ls, motive n := fun n hn => (h n hn).1
  induction ns generalizing ls with
  | nil => simpa using hsame
  | cons p ns ih =>
    cases ls with
    | nil => simp
    | cons m ls =>
      simp only [List.forall_mem_cons] at h
      cases ns with
      | nil =>
        rw [moveFrom_singleton]
        split
        . exact List.forall_mem_cons.mpr ⟨h.1.2, fun n hn => (h.2 n hn).1⟩
        . exact hsame
      | cons p' ns =>
        rw [moveFrom_cons_cons]
        split
        . exact List.forall_mem_cons.mpr ⟨h.1.1, ih ls h.2 fun n hn => (h.2 n hn).1⟩
        . exact hsame

theorem moveFrom_isInside_cases {l pos h : Label} (hin : (moveFrom f pos l).isInside h) :
    l.isInside pos ∧ h = pos ∨ ∃ h', h' ≠ pos ∧ l.isInside h' ∧ moveFrom f pos h' = h := by
  -- The subproofs around a label that has been moved are those around it, moved. Only what is
  -- inside of `pos` stays in the place that `pos` leaves.
  have hdepth := depth_lt_of_isInside hin
  rw [depth_moveFrom] at hdepth
  obtain ⟨h', hin', hdepth'⟩ := exists_isInside_of_lt_depth hdepth
  by_cases hpos : h' = pos
  . subst hpos
    rw [moveFrom_of_before f (before_of_isInside hin')] at hin
    exact .inl ⟨hin', eq_of_isInside_of_depth_eq hin hin' hdepth'.symm⟩
  . refine .inr ⟨h', hpos, hin', ?_⟩
    apply eq_of_isInside_of_depth_eq (moveFrom_isInside f hpos hin') hin
    rw [depth_moveFrom, hdepth']

end Shift

section Raise

variable {pos x y : Label} (k : Nat)

theorem moveFrom_add_before (h : x.before y) :
    (moveFrom (· + k) pos x).before (moveFrom (· + k) pos y) := by
  obtain ⟨ns⟩ := pos
  obtain ⟨xs⟩ := x
  obtain ⟨ys⟩ := y
  induction ns generalizing xs ys with
  | nil => simpa using h
  | cons n ns ih =>
    cases xs with
    | nil => simp at h
    | cons x xs =>
      cases ys with
      | nil =>
        cases ns with
        | nil =>
          simp only [moveFrom_singleton, moveFrom_of_nil]
          split <;> simp
        | cons n' ns =>
          simp only [moveFrom_cons_cons, moveFrom_of_nil]
          split <;> simp
      | cons y ys =>
        cases ns with
        | nil =>
          simp only [moveFrom_singleton, before_cons_cons] at *
          split <;> split <;> simp only [before_cons_cons]
          all_goals grind [not_before_of_nil]
        | cons n' ns =>
          simp only [moveFrom_cons_cons, before_cons_cons] at *
          split <;> split <;> simp only [before_cons_cons, mk_parts]
          all_goals grind

theorem moveFrom_add_visibleAt (h : x.visibleAt y) :
    (moveFrom (· + k) pos x).visibleAt (moveFrom (· + k) pos y) := by
  obtain ⟨ns⟩ := pos
  obtain ⟨xs⟩ := x
  obtain ⟨ys⟩ := y
  induction ns generalizing xs ys with
  | nil => simpa using h
  | cons n ns ih =>
    cases xs with
    | nil => simp at h
    | cons x xs =>
      cases ys with
      | nil => simp at h
      | cons y ys =>
        cases ns with
        | nil =>
          simp only [moveFrom_singleton, visibleAt_cons_cons] at *
          split <;> split <;> simp only [visibleAt_cons_cons]
          all_goals grind [not_visibleAt_of_nil, not_visibleAt_nil]
        | cons n' ns =>
          simp only [moveFrom_cons_cons, visibleAt_cons_cons] at *
          split <;> split <;> simp only [visibleAt_cons_cons, mk_parts, moveFrom_parts_eq_nil]
          all_goals grind

theorem isInside_of_moveFrom_add_isInside
    (h : (moveFrom (· + k) pos x).isInside (moveFrom (· + k) pos y)) : x.isInside y := by
  obtain ⟨ns⟩ := pos
  obtain ⟨xs⟩ := x
  obtain ⟨ys⟩ := y
  induction ns generalizing xs ys with
  | nil => simpa using h
  | cons n ns ih =>
    cases xs with
    | nil => simp at h
    | cons x xs =>
      cases ys with
      | nil => simp
      | cons y ys =>
        cases ns with
        | nil =>
          simp only [moveFrom_singleton] at h
          split at h <;> split at h <;> simp only [isInside_cons_cons] at *
          all_goals grind
        | cons n' ns =>
          simp only [moveFrom_cons_cons] at h
          split at h <;> split at h <;> simp only [isInside_cons_cons, mk_parts] at *
          all_goals grind

theorem moveFrom_add_zero (pos l : Label) : moveFrom (· + 0) pos l = l := by
  obtain ⟨ns⟩ := pos
  obtain ⟨ls⟩ := l
  induction ns generalizing ls with
  | nil => simp
  | cons n ns ih =>
    cases ls with
    | nil => simp
    | cons l ls =>
      cases ns with
      | nil =>
        rw [moveFrom_singleton]
        split <;> rfl
      | cons n' ns =>
        rw [moveFrom_cons_cons, ih]
        split <;> rfl

theorem Within.moveFrom_add {bound : Nat} (hx : x.Within bound)
    (h : ∀ n ∈ (moveFrom (· + k) pos x).parts, n ≤ bound) :
    (moveFrom (· + k) pos x).Within bound := by
  refine ⟨by simpa using hx.1, fun n hn => ⟨?_, h n hn⟩⟩
  refine forall_parts_moveFrom (· + k) (motive := (0 < ·)) ?_ pos n hn
  intro m hm
  exact ⟨(hx.2 m hm).1, Nat.add_pos_left (hx.2 m hm).1 k⟩

end Raise

section Lower

def addLast (l : Label) (k : Nat) : Label :=
  ⟨go l.parts⟩
where
  go : List Nat → List Nat
    | [] => []
    | [n] => [n + k]
    | n :: ns => n :: go ns

@[simp]
theorem addLast_singleton (n k : Nat) : addLast ⟨[n]⟩ k = ⟨[n + k]⟩ := by
  rfl

@[simp]
theorem addLast_cons_cons (n n' k : Nat) (ns : List Nat) :
    addLast ⟨n :: n' :: ns⟩ k = ⟨n :: (addLast ⟨n' :: ns⟩ k).parts⟩ := by
  rfl

variable {pos x y : Label}

theorem moveFrom_pred_before (hx : x ≠ pos) (hy : y ≠ pos)
    (hclash : x.isInside pos → ¬ y.isInside (pos.addLast 1)) (h : x.before y) :
    (moveFrom (· - 1) pos x).before (moveFrom (· - 1) pos y) := by
  obtain ⟨ns⟩ := pos
  obtain ⟨xs⟩ := x
  obtain ⟨ys⟩ := y
  induction ns generalizing xs ys with
  | nil => simpa using h
  | cons n ns ih =>
    cases xs with
    | nil => simp at h
    | cons x xs =>
      cases ys with
      | nil =>
        cases ns with
        | nil =>
          simp only [moveFrom_singleton, moveFrom_of_nil]
          split <;> simp
        | cons n' ns =>
          simp only [moveFrom_cons_cons, moveFrom_of_nil]
          split <;> simp
      | cons y ys =>
        cases ns with
        | nil =>
          simp only [moveFrom_singleton, before_cons_cons, addLast_singleton,
            isInside_cons_cons] at *
          have hxs : xs ≠ [] → isInside ⟨xs⟩ ⟨[]⟩ = true := by cases xs <;> simp
          have hys : ys ≠ [] → isInside ⟨ys⟩ ⟨[]⟩ = true := by cases ys <;> simp
          have hxe : xs ≠ [] → before ⟨xs⟩ ⟨[]⟩ = true := by cases xs <;> simp
          split <;> split <;> simp only [before_cons_cons]
          all_goals grind [not_before_of_nil]
        | cons n' ns =>
          simp only [moveFrom_cons_cons, before_cons_cons, addLast_cons_cons, isInside_cons_cons,
            mk_parts, ne_eq, mk.injEq, List.cons.injEq] at *
          split <;> split <;> simp only [before_cons_cons, mk_parts]
          all_goals grind

theorem moveFrom_pred_visibleAt (hx : x ≠ pos) (hy : y ≠ pos) (h : x.visibleAt y) :
    (moveFrom (· - 1) pos x).visibleAt (moveFrom (· - 1) pos y) := by
  obtain ⟨ns⟩ := pos
  obtain ⟨xs⟩ := x
  obtain ⟨ys⟩ := y
  induction ns generalizing xs ys with
  | nil => simpa using h
  | cons n ns ih =>
    cases xs with
    | nil => simp at h
    | cons x xs =>
      cases ys with
      | nil => simp at h
      | cons y ys =>
        cases ns with
        | nil =>
          simp only [moveFrom_singleton, visibleAt_cons_cons] at *
          split <;> split <;> simp only [visibleAt_cons_cons]
          all_goals grind [not_visibleAt_of_nil, not_visibleAt_nil]
        | cons n' ns =>
          simp only [moveFrom_cons_cons, visibleAt_cons_cons, ne_eq, mk.injEq,
            List.cons.injEq] at *
          split <;> split <;> simp only [visibleAt_cons_cons, mk_parts, moveFrom_parts_eq_nil]
          all_goals grind

theorem isInside_of_moveFrom_pred_isInside (hx : x ≠ pos) (hy : y ≠ pos)
    (hxy : x.isInside pos → ¬ y.isInside (pos.addLast 1))
    (hyx : y.isInside pos → ¬ x.isInside (pos.addLast 1))
    (h : (moveFrom (· - 1) pos x).isInside (moveFrom (· - 1) pos y)) :
    x.isInside y ∨ x.isInside pos ∧ y = pos.addLast 1 := by
  obtain ⟨ns⟩ := pos
  obtain ⟨xs⟩ := x
  obtain ⟨ys⟩ := y
  induction ns generalizing xs ys with
  | nil => exact .inl (by simpa using h)
  | cons n ns ih =>
    cases xs with
    | nil => simp at h
    | cons x xs =>
      cases ys with
      | nil => simp
      | cons y ys =>
        cases ns with
        | nil =>
          clear ih
          have hxs : xs ≠ [] → isInside ⟨xs⟩ ⟨[]⟩ = true := by cases xs <;> simp
          have hys : ys ≠ [] → isInside ⟨ys⟩ ⟨[]⟩ = true := by cases ys <;> simp
          simp only [moveFrom_singleton, addLast_singleton, isInside_cons_cons, ne_eq, mk.injEq,
            List.cons.injEq] at *
          split at h <;> split at h <;> simp only [isInside_cons_cons] at *
          all_goals grind [not_isInside_of_nil]
        | cons n' ns =>
          simp only [moveFrom_cons_cons, addLast_cons_cons, isInside_cons_cons, ne_eq, mk.injEq,
            List.cons.injEq, mk_parts] at *
          split at h <;> split at h <;> simp only [isInside_cons_cons, mk_parts] at h ⊢
          . have := ih xs (by grind) ys (by grind) (by grind) (by grind) h.2
            grind
          all_goals grind

theorem pos_of_mem_moveFrom_pred (hpos : ∀ n ∈ pos.parts, 0 < n) (hx : ∀ n ∈ x.parts, 0 < n)
    (hne : x ≠ pos) : ∀ n ∈ (moveFrom (· - 1) pos x).parts, 0 < n := by
  obtain ⟨ns⟩ := pos
  obtain ⟨xs⟩ := x
  induction ns generalizing xs with
  | nil => simpa using hx
  | cons n ns ih =>
    cases xs with
    | nil => simp
    | cons x xs =>
      simp only [List.forall_mem_cons, ne_eq, mk.injEq, List.cons.injEq] at *
      cases ns with
      | nil =>
        rw [moveFrom_singleton]
        split
        . refine List.forall_mem_cons.mpr ⟨?_, hx.2⟩
          grind
        . exact List.forall_mem_cons.mpr hx
      | cons n' ns =>
        rw [moveFrom_cons_cons]
        split
        . exact List.forall_mem_cons.mpr ⟨hx.1, ih hpos.2 xs hx.2 (by grind)⟩
        . exact List.forall_mem_cons.mpr hx

theorem Within.moveFrom_pred {bound : Nat} (hpos : pos.Within bound) (hx : x.Within bound)
    (hne : x ≠ pos) : (moveFrom (· - 1) pos x).Within bound := by
  have hpositive := pos_of_mem_moveFrom_pred (fun n hn => (hpos.2 n hn).1)
    (fun n hn => (hx.2 n hn).1) hne
  refine ⟨by simpa using hx.1, fun n hn => ⟨hpositive n hn, ?_⟩⟩
  refine forall_parts_moveFrom (· - 1) (motive := (· ≤ bound)) ?_ pos n hn
  intro m hm
  exact ⟨(hx.2 m hm).2, Nat.le_trans (Nat.sub_le m 1) (hx.2 m hm).2⟩

end Lower

section Gap

variable {pos x y : Label} {k t t' : Nat}

theorem before_addLast (h : x.before pos) : x.before (pos.addLast t) := by
  obtain ⟨ns⟩ := pos
  obtain ⟨xs⟩ := x
  induction ns generalizing xs with
  | nil => exact h
  | cons n ns ih =>
    cases xs with
    | nil => simp at h
    | cons x xs =>
      cases ns with
      | nil =>
        simp only [addLast_singleton, before_cons_cons] at *
        grind
      | cons n' ns =>
        simp only [addLast_cons_cons, before_cons_cons, mk_parts] at *
        grind

theorem addLast_before_addLast (hpos : pos.parts ≠ []) (h : t < t') :
    (pos.addLast t).before (pos.addLast t') := by
  obtain ⟨ns⟩ := pos
  induction ns with
  | nil => simp at hpos
  | cons n ns ih =>
    cases ns with
    | nil => simpa using h
    | cons n' ns => simpa using ih

@[simp]
theorem addLast_zero (l : Label) : l.addLast 0 = l := by
  obtain ⟨ns⟩ := l
  induction ns with
  | nil => rfl
  | cons n ns ih =>
    cases ns with
    | nil => rfl
    | cons n' ns => rw [addLast_cons_cons, ih]

theorem addLast_visibleAt_addLast (hpos : pos.parts ≠ []) (h : t < t') :
    (pos.addLast t).visibleAt (pos.addLast t') := by
  obtain ⟨ns⟩ := pos
  induction ns with
  | nil => simp at hpos
  | cons n ns ih =>
    cases ns with
    | nil => simpa using h
    | cons n' ns => simpa using ih

theorem moveFrom_add_self : moveFrom (· + k) pos pos = pos.addLast k := by
  obtain ⟨ns⟩ := pos
  induction ns with
  | nil => rfl
  | cons n ns ih =>
    cases ns with
    | nil => simp [moveFrom_singleton]
    | cons n' ns => simp [moveFrom_cons_cons, ih]

theorem visibleAt_addLast (h : x.visibleAt pos) : x.visibleAt (pos.addLast k) := by
  have : (moveFrom (· + k) pos x).visibleAt (moveFrom (· + k) pos pos) :=
    moveFrom_add_visibleAt k h
  rwa [moveFrom_of_before _ (before_of_visibleAt h), moveFrom_add_self] at this

theorem Within.addLast {bound : Nat} (hpos : pos.Within bound)
    (h : ∀ n ∈ (pos.addLast k).parts, n ≤ bound) : (pos.addLast k).Within bound := by
  rw [← moveFrom_add_self] at h ⊢
  exact hpos.moveFrom_add k h

theorem addLast_before_moveFrom (h : pos.before y) (ht : t < k) :
    (pos.addLast t).before (moveFrom (· + k) pos y) := by
  obtain ⟨ns⟩ := pos
  obtain ⟨ys⟩ := y
  induction ns generalizing ys with
  | nil => simp at h
  | cons n ns ih =>
    cases ys with
    | nil =>
      cases ns <;> simp
    | cons y ys =>
      cases ns with
      | nil =>
        simp only [addLast_singleton, moveFrom_singleton, before_cons_cons] at *
        split <;> simp only [before_cons_cons]
        all_goals grind [not_before_of_nil]
      | cons n' ns =>
        simp only [addLast_cons_cons, moveFrom_cons_cons, before_cons_cons] at *
        split <;> simp only [before_cons_cons, mk_parts]
        all_goals grind

theorem isInside_addLast_iff {h : Label} (hpos : pos.parts ≠ []) :
    (pos.addLast k).isInside h ↔ pos.isInside h := by
  obtain ⟨ns⟩ := pos
  obtain ⟨hs⟩ := h
  induction hs generalizing ns with
  | nil =>
    match ns with
    | [] => simp at hpos
    | [n] => simp
    | n :: n' :: ns => simp
  | cons h hs ih =>
    match ns with
    | [] => simp at hpos
    | [n] => simp
    | n :: n' :: ns => simp [ih]

theorem addLast_isInside_self (hpos : pos.parts ≠ []) : (pos.addLast k).isInside pos = false := by
  rw [← Bool.not_eq_true, isInside_addLast_iff hpos, isInside_irrefl]
  simp

theorem isInside_addLast_of_between (h : pos.before x) (h' : x.before (pos.addLast 1)) :
    x.isInside (pos.addLast 1) := by
  obtain ⟨ns⟩ := pos
  obtain ⟨xs⟩ := x
  induction ns generalizing xs with
  | nil => simp at h
  | cons n ns ih =>
    cases xs with
    | nil => cases ns <;> simp at h'
    | cons x xs =>
      cases ns with
      | nil =>
        have hxs : before ⟨xs⟩ ⟨[]⟩ = true → isInside ⟨xs⟩ ⟨[]⟩ = true := by cases xs <;> simp
        simp only [addLast_singleton, before_cons_cons, isInside_cons_cons] at *
        grind [not_before_of_nil]
      | cons n' ns =>
        simp only [addLast_cons_cons, before_cons_cons, isInside_cons_cons, mk_parts] at *
        grind

theorem moveFrom_pred_addLast_one : moveFrom (· - 1) pos (pos.addLast 1) = pos := by
  obtain ⟨ns⟩ := pos
  induction ns with
  | nil => rfl
  | cons n ns ih =>
    cases ns with
    | nil => simp [moveFrom_singleton]
    | cons n' ns => simp [moveFrom_cons_cons, ih]

theorem moveFrom_add_ne_addLast (hpos : pos.parts ≠ []) (l : Label) (ht : t < k) :
    moveFrom (· + k) pos l ≠ pos.addLast t := by
  intro heq
  have hlt : (pos.addLast t).before (moveFrom (· + k) pos l) ∨ l.before pos := by
    rcases before_or_eq_or_before l pos with h | rfl | h
    . exact .inr h
    . rw [moveFrom_add_self]
      exact .inl (addLast_before_addLast hpos ht)
    . exact .inl (addLast_before_moveFrom h ht)
  rcases hlt with h | h
  . rw [heq, before_irrefl] at h
    simp at h
  . have h' := before_addLast (t := t) h
    rw [← heq, moveFrom_of_before _ h, before_irrefl] at h'
    simp at h'

theorem isInside_of_moveFrom_add_isInside_self (hpos : pos.parts ≠ []) {l : Label}
    (h : (moveFrom (· + k) pos l).isInside pos) : l.isInside pos := by
  rcases before_or_eq_or_before l pos with hl | rfl | hl
  . rwa [moveFrom_of_before _ hl] at h
  . rw [moveFrom_add_self, isInside_addLast_iff hpos, isInside_irrefl] at h
    simp at h
  . have hlt : (moveFrom (· + k) pos pos).before (moveFrom (· + k) pos l) :=
      moveFrom_add_before k hl
    have hgt := before_addLast (t := k) (before_of_isInside h)
    rw [moveFrom_add_self] at hlt
    simp [before_asymm hlt] at hgt

theorem moveFrom_pred_moveFrom_add (pos l : Label) (k : Nat) :
    moveFrom (· - 1) (pos.addLast k) (moveFrom (· + (k + 1)) pos l) = moveFrom (· + k) pos l := by
  obtain ⟨ns⟩ := pos
  obtain ⟨ls⟩ := l
  induction ns generalizing ls with
  | nil => simp [addLast, addLast.go]
  | cons n ns ih =>
    cases ls with
    | nil => simp
    | cons m ms =>
      cases ns with
      | nil =>
        simp only [moveFrom_singleton, addLast_singleton]
        split
        . rw [moveFrom_singleton, if_pos (by omega)]
          rfl
        . next h => rw [moveFrom_singleton, if_neg (by grind)]
      | cons n' ns =>
        have ih := congrArg parts (ih ms)
        obtain ⟨a, as, hlast⟩ : ∃ a as, addLast ⟨n' :: ns⟩ k = ⟨a :: as⟩ := by
          cases ns with
          | nil => exact ⟨_, _, rfl⟩
          | cons n'' ns => exact ⟨_, _, rfl⟩
        rw [hlast] at ih
        rw [addLast_cons_cons, hlast, moveFrom_cons_cons, moveFrom_cons_cons]
        split
        . next h => rw [moveFrom_cons_cons, if_pos h, ← ih]
        . next h => rw [moveFrom_cons_cons, if_neg h]

end Gap

section Range

variable {l pos : Label} {k : Nat}

theorem moveFrom_congr {f g : Nat → Nat} {motive : Nat → Prop}
    (hfg : ∀ m ∈ l.parts, motive (f m) → f m = g m)
    (h : ∀ n ∈ (moveFrom f pos l).parts, motive n) : moveFrom f pos l = moveFrom g pos l := by
  obtain ⟨ms⟩ := l
  obtain ⟨ns⟩ := pos
  induction ns generalizing ms with
  | nil => simp
  | cons n ns ih =>
    cases ms with
    | nil => simp
    | cons m ms =>
      rw [List.forall_mem_cons] at hfg
      cases ns with
      | nil =>
        simp only [moveFrom_singleton] at *
        split
        . next hm =>
          rw [if_pos hm, List.forall_mem_cons] at h
          rw [hfg.1 h.1]
        . rfl
      | cons n' ns =>
        simp only [moveFrom_cons_cons] at *
        split
        . next hm =>
          rw [if_pos hm, List.forall_mem_cons] at h
          rw [ih ms hfg.2 h.2]
        . rfl

theorem shift_ofNat (h : ∀ n ∈ (l.shift pos k).parts, n < maxPart) :
    l.shift pos k = moveFrom (· + k) pos l := by
  rw [shift_eq_moveFrom] at *
  exact moveFrom_congr (motive := (· < maxPart)) (fun m _ hm => movePart_ofNat hm) h

theorem shift_of_le (h : ∀ n ∈ (moveFrom (· + k) pos l).parts, n ≤ maxPart) :
    l.shift pos k = moveFrom (· + k) pos l := by
  rw [shift_eq_moveFrom]
  apply Eq.symm
  exact moveFrom_congr (motive := (· ≤ maxPart)) (fun m _ hm => (movePart_of_le hm).symm) h

theorem shift_neg (k : Nat) (h : ∀ n ∈ l.parts, n ≤ maxPart) :
    l.shift pos (-k) = moveFrom (· - k) pos l := by
  rw [shift_eq_moveFrom]
  refine moveFrom_congr (motive := fun _ => True) ?_ fun _ _ => trivial
  exact fun m hm _ => movePart_neg (h m hm)

theorem shift_neg_one (h : ∀ n ∈ l.parts, n ≤ maxPart) :
    l.shift pos (-1) = moveFrom (· - 1) pos l :=
  shift_neg 1 h

@[simp]
theorem moveLast_singleton (n : Nat) (delta : Int) :
    moveLast ⟨[n]⟩ delta = ⟨[movePart n delta]⟩ := by
  rfl

@[simp]
theorem moveLast_cons_cons (n n' : Nat) (ns : List Nat) (delta : Int) :
    moveLast ⟨n :: n' :: ns⟩ delta = ⟨n :: (moveLast ⟨n' :: ns⟩ delta).parts⟩ := by
  rfl

theorem shift_self (l : Label) (delta : Int) : l.shift l delta = l.moveLast delta := by
  rw [shift_eq_moveFrom]
  obtain ⟨ns⟩ := l
  induction ns with
  | nil => rfl
  | cons n ns ih =>
    cases ns with
    | nil => simp [moveFrom_singleton]
    | cons n' ns => simp [moveFrom_cons_cons, ih]

theorem forall_parts_moveLast {motive : Nat → Prop} {delta : Int}
    (h : ∀ m ∈ l.parts, motive m ∧ motive (movePart m delta)) :
    ∀ n ∈ (l.moveLast delta).parts, motive n := by
  rw [← shift_self, shift_eq_moveFrom]
  exact forall_parts_moveFrom (movePart · delta) h l

theorem moveLast_ofNat (h : ∀ n ∈ (l.moveLast k).parts, n < maxPart) :
    l.moveLast k = l.addLast k := by
  rw [← shift_self] at *
  rw [shift_ofNat h, moveFrom_add_self]

theorem moveLast_of_le (h : ∀ n ∈ (l.addLast k).parts, n ≤ maxPart) :
    l.moveLast k = l.addLast k := by
  rw [← moveFrom_add_self] at *
  rw [← shift_self, shift_of_le h]

theorem moveLast_one (h : ∀ n ∈ l.parts, n < maxPart) : l.moveLast 1 = l.addLast 1 := by
  apply moveLast_of_le
  rw [← moveFrom_add_self]
  refine forall_parts_moveFrom (· + 1) ?_ l
  intro m hm
  exact ⟨Nat.le_of_lt (h m hm), h m hm⟩

end Range

end ProofDesk.Label
