import Mathlib.Data.List.Forall2

/-!
This module contains what the proofs about both editors share: computations that may be rejected,
runs of edits, and lists that are split at the place of an edit.
-/

namespace ProofDesk

section Accepted

variable {ε α β : Type}

theorem exists_of_bind_eq_ok {x : Except ε α} {f : α → Except ε β} {b : β}
    (h : x >>= f = .ok b) : ∃ a, x = .ok a ∧ f a = .ok b := by
  cases x with
  | error e => simp [bind, Except.bind] at h
  | ok a => exact ⟨a, rfl, h⟩

theorem exists_of_map_toOption_eq_some {x : Except ε α} {f : α → β} {b : β}
    (h : x.toOption.map f = some b) : ∃ a, x = .ok a ∧ f a = b := by
  cases x with
  | error e => simp [Except.toOption] at h
  | ok a => exact ⟨a, rfl, by simpa [Except.toOption] using h⟩

theorem forall₂_of_mapM_eq_ok {f : α → Except ε β} {as : List α} {bs : List β}
    (h : as.mapM f = .ok bs) : List.Forall₂ (fun a b => f a = .ok b) as bs := by
  induction as generalizing bs with
  | nil =>
    have : [] = bs := by simpa [pure, Except.pure] using h
    exact this ▸ .nil
  | cons a as ih =>
    rw [List.mapM_cons] at h
    obtain ⟨b, hb, h⟩ := exists_of_bind_eq_ok h
    obtain ⟨rest, hrest, h⟩ := exists_of_bind_eq_ok h
    have : b :: rest = bs := by simpa [pure, Except.pure] using h
    exact this ▸ .cons hb (ih hrest)

theorem forall₂_of_mapM_eq_some {f : α → Option β} {as : List α} {bs : List β}
    (h : as.mapM f = some bs) : List.Forall₂ (fun a b => f a = some b) as bs := by
  induction as generalizing bs with
  | nil =>
    have : [] = bs := by simpa using h
    exact this ▸ .nil
  | cons a as ih =>
    rw [List.mapM_cons] at h
    obtain ⟨b, hb, h⟩ := Option.bind_eq_some_iff.mp h
    obtain ⟨rest, hrest, h⟩ := Option.bind_eq_some_iff.mp h
    have : b :: rest = bs := by simpa using h
    exact this ▸ .cons hb (ih hrest)

theorem mapM_eq_pure_map {m : Type → Type} [Monad m] [LawfulMonad m] {f : α → m β} {g : α → β}
    {as : List α} (h : ∀ a ∈ as, f a = pure (g a)) : as.mapM f = pure (as.map g) := by
  induction as with
  | nil => simp
  | cons a as ih =>
    rw [List.forall_mem_cons] at h
    rw [List.mapM_cons, h.1, ih h.2, pure_bind, pure_bind, List.map_cons]

end Accepted

namespace Run

variable {σ α ε : Type} {step : σ → α → Except ε σ} {s next : σ} {edits : List α}

def result (step : σ → α → Except ε σ) (s : σ) (edits : List α) : Except ε σ :=
  edits.foldlM step s

/--
Whether a test holds of every edit, at the state it is made to.
-/
def throughout (step : σ → α → Except ε σ) (test : σ → α → Bool) (s : σ) : List α → Bool
  | [] => true
  | edit :: edits =>
    test s edit && (step s edit).toOption.all fun next => throughout step test next edits

theorem result_induction {motive : σ → List α → Prop}
    (hstep : ∀ s edit edits next, motive s (edit :: edits) → step s edit = .ok next →
      motive next edits)
    (h : motive s edits) (hrun : result step s edits = .ok next) : motive next [] := by
  induction edits generalizing s with
  | nil =>
    have : s = next := by simpa [result, pure, Except.pure] using hrun
    exact this ▸ h
  | cons edit edits ih =>
    rw [result, List.foldlM_cons] at hrun
    obtain ⟨between, hbetween, hrun⟩ := exists_of_bind_eq_ok hrun
    exact ih (hstep s edit edits between h hbetween) hrun

theorem throughout_induction {test : σ → α → Bool} {motive : σ → Prop}
    (hstep : ∀ s edit next, motive s → test s edit = true → step s edit = .ok next → motive next)
    (h : motive s) (htest : throughout step test s edits = true)
    (hrun : result step s edits = .ok next) : motive next := by
  refine (result_induction (motive := fun s edits => motive s ∧ throughout step test s edits = true)
    ?_ ⟨h, htest⟩ hrun).1
  rintro s edit edits between ⟨h, htest⟩ hbetween
  simp only [throughout, hbetween, Except.toOption, Option.all_some, Bool.and_eq_true] at htest
  exact ⟨hstep s edit between h htest.1 hbetween, htest.2⟩

end Run

section Split

variable {α : Type} {as bs : List α}

theorem exists_split_of_getElem? {as : List α} {i : Nat} {a : α} (h : as[i]? = some a) :
    ∃ bs cs, as = bs ++ a :: cs ∧ bs.length = i := by
  obtain ⟨hi, rfl⟩ := List.getElem?_eq_some_iff.mp h
  refine ⟨as.take i, as.drop (i + 1), ?_, ?_⟩
  . rw [List.getElem_cons_drop, List.take_append_drop]
  . rw [List.length_take]
    omega

theorem getElem?_split (a : α) : (as ++ a :: bs)[as.length]? = some a := by
  simp

theorem modify_split (a : α) (f : α → α) :
    (as ++ a :: bs).modify as.length f = as ++ f a :: bs := by
  induction as with
  | nil => rfl
  | cons x as ih => simp [ih]

theorem insertIdx_split (a : α) : (as ++ bs).insertIdx as.length a = as ++ a :: bs := by
  induction as with
  | nil => rfl
  | cons x as ih => simp [ih]

theorem eraseIdx_split (a : α) : (as ++ a :: bs).eraseIdx as.length = as ++ bs := by
  rw [List.eraseIdx_append_of_length_le (Nat.le_refl _), Nat.sub_self, List.eraseIdx_zero,
    List.tail_cons]

theorem mem_of_mem_inserted {bs' : List α} {a : α} (h : a ∈ as ++ bs' ++ bs) :
    a ∈ as ++ bs ∨ a ∈ bs' := by
  simp only [List.mem_append] at h ⊢
  grind

theorem mem_of_mem_replaced {a b : α} (c : α) (h : a ∈ as ++ b :: bs) :
    a ∈ as ++ c :: bs ∨ a = b := by
  simp only [List.mem_append, List.mem_cons] at h ⊢
  grind

theorem map_eq_self {f : α → α} (h : ∀ a ∈ as, f a = a) : as.map f = as := by
  rw [List.map_congr_left h, List.map_id']

theorem exists_left_of_forall₂ {β : Type} {R : α → β → Prop} {bs : List β}
    (h : List.Forall₂ R as bs) {b : β} (hb : b ∈ bs) : ∃ a ∈ as, R a b := by
  induction h with
  | nil => simp at hb
  | cons hab _ ih =>
    rcases List.mem_cons.mp hb with rfl | hb
    . exact ⟨_, List.mem_cons_self, hab⟩
    . obtain ⟨a, ha, hr⟩ := ih hb
      exact ⟨a, List.mem_cons_of_mem _ ha, hr⟩

end Split

end ProofDesk
