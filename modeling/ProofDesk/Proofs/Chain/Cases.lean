import ProofDesk.Chain.Edit
import ProofDesk.Proofs.Editing

/-!
This module contains what an accepted edit can do to a chain: one case for each way through the
editor, with the links before and after the edited one written out. The later modules use these
cases instead of the functions.
-/

namespace ProofDesk.Chain

def mapLast (f : Link → Link) (links : List Link) : List Link :=
  links.modify (links.length - 1) f

@[simp]
theorem mapLast_nil (f : Link → Link) : mapLast f [] = [] := by
  rfl

@[simp]
theorem mapLast_concat (f : Link → Link) (links : List Link) (link : Link) :
    mapLast f (links ++ [link]) = links ++ [f link] := by
  unfold mapLast
  rw [List.length_append, List.length_singleton, Nat.add_sub_cancel, modify_split]

@[simp]
theorem length_mapLast (f : Link → Link) (links : List Link) :
    (mapLast f links).length = links.length := by
  simp [mapLast]

def tip (c : Chain) (before : List Link) : Formula × Stamp :=
  (before.getLast?.map fun link => (link.formula, link.stamp)).getD (c.start, c.startStamp)

@[simp]
theorem tip_nil (c : Chain) : c.tip [] = (c.start, c.startStamp) := by
  rfl

@[simp]
theorem tip_concat (c : Chain) (before : List Link) (link : Link) :
    c.tip (before ++ [link]) = (link.formula, link.stamp) := by
  simp [tip]

theorem tip_mapLast {f : Link → Link} (hf : ∀ link, (f link).formula = link.formula) (c : Chain)
    (before : List Link) : (c.tip (mapLast f before)).1 = (c.tip before).1 := by
  obtain rfl | ⟨init, last, rfl⟩ := List.eq_nil_or_concat' before
  . rfl
  . simp [hf]

section Split

variable {c : Chain} {before after : List Link} {link : Link}

theorem link_eq_ok {i : Nat} : c.link i = .ok link ↔ c.links[i]? = some link := by
  unfold Chain.link
  split <;> simp_all

theorem link_split (hlinks : c.links = before ++ link :: after) :
    c.link before.length = .ok link := by
  rw [link_eq_ok, hlinks, getElem?_split]

theorem modifyAbove_split (hlinks : c.links = before ++ after) (f : Link → Link) :
    c.modifyAbove before.length f = { c with links := mapLast f before ++ after } := by
  obtain rfl | ⟨init, last, rfl⟩ := List.eq_nil_or_concat' before
  . simp [modifyAbove, ← hlinks]
  . simp only [List.length_append, List.length_singleton, modifyAbove, mapLast_concat]
    rw [hlinks, List.append_assoc, List.singleton_append, modify_split, List.append_assoc,
      List.singleton_append]

theorem setLink_split (hlinks : c.links = before ++ link :: after) (new : Link) :
    c.setLink before.length new = { c with links := before ++ new :: after } := by
  simp [setLink, hlinks]

theorem modify_length_split (f : Link → Link) :
    (before ++ after).modify before.length f = before ++ after.modifyHead f := by
  cases after with
  | nil =>
    rw [List.append_nil, List.modify_eq_self (Nat.le_refl _), List.modifyHead_nil, List.append_nil]
  | cons link after => rw [modify_split, List.modifyHead_cons]

theorem above?_split (hlinks : c.links = before ++ after) :
    c.above? before.length = some (c.tip before) := by
  obtain rfl | ⟨init, last, rfl⟩ := List.eq_nil_or_concat' before
  . rfl
  . rw [List.length_append, List.length_singleton, tip_concat, above?, hlinks, List.append_assoc,
      List.singleton_append, getElem?_split, Option.map_some]

theorem above_split (hlinks : c.links = before ++ link :: after) :
    c.above before.length = .ok (c.tip before) := by
  unfold above
  rw [link_split hlinks, above?_split hlinks]
  rfl

theorem hasSource_split (hlinks : c.links = before ++ after) (stamp : Stamp) :
    c.hasSource before.length stamp = after.head?.any (·.source == some stamp) := by
  rw [hasSource, hlinks, List.getElem?_append_right (Nat.le_refl _), Nat.sub_self,
    List.head?_eq_getElem?]

theorem isSourceAbove_split {above : Link} (hlinks : c.links = before ++ above :: after) :
    c.isSourceAbove (before.length + 1)
      =
    before.getLast?.any (·.source == some above.stamp) := by
  obtain rfl | ⟨init, last, rfl⟩ := List.eq_nil_or_concat' before
  . rfl
  . have habove : c.links[init.length + 1]? = some above := by
      have hlen : init.length + 1 = (init ++ [last]).length := by simp
      rw [hlen, hlinks, getElem?_split]
    have hlast : c.hasSource init.length above.stamp = (last.source == some above.stamp) := by
      rw [List.append_assoc, List.singleton_append] at hlinks
      rw [hasSource_split hlinks, List.head?_cons, Option.any_some]
    simp [isSourceAbove, habove, hlast]

end Split

inductive Updated (c : Chain) (before after : List Link) (old link : Link) : Chain → Prop where
  | stored (hresult : link.result? (c.tip before).1 = none) :
      Updated c before after old link { c with links := before ++ link :: after }
  | rewritten (result : Formula) (hresult : link.result? (c.tip before).1 = some result)
      (hdirection : old.direction = .forward) (hsource : link.source = some (c.tip before).2)
      (hfree : ∀ next, after.head? = some next → next.source ≠ some link.stamp) :
      Updated c before after old link
        { c with
          links := before ++ { link with formula := result, stamp := c.stamp } :: after
          stamp := c.stamp.next }
  | explained (hresult : link.result? (c.tip before).1 = some old.formula)
      (hdirection : old.direction = .forward) (htied : link.source = some (c.tip before).2 →
        ∃ next, after.head? = some next ∧ next.source = some link.stamp) :
      Updated c before after old link
        { c with
          links := before ++ { link with source := some (link.source.getD (c.tip before).2) }
            :: after }
  | inserted (result : Formula) (hresult : link.result? (c.tip before).1 = some result)
      (hdirection : old.direction = .forward) (hformula : old.formula ≠ result)
      (htied : link.source = some (c.tip before).2 →
        ∃ next, after.head? = some next ∧ next.source = some link.stamp) :
      Updated c before after old link
        { c with
          links := before
            ++ { link with formula := result, stamp := c.stamp, source := some (c.tip before).2 }
              :: unlink (c.tip before).2 old :: after
          stamp := c.stamp.next }
  | rewrittenAbove (init : List Link) (above : Link) (hbefore : before = init ++ [above])
      (result : Formula) (hresult : link.result? above.formula = some result)
      (hdirection : old.direction = .backward) (hsource : above.source = some link.stamp)
      (hfree : ∀ l, init.getLast? = some l → l.source ≠ some above.stamp) :
      Updated c before after old link
        { c with
          links := init ++ { above with formula := result, stamp := c.stamp } :: link :: after
          stamp := c.stamp.next }
  | explainedAbove (hresult : link.result? (c.tip before).1 = some (c.tip before).1)
      (hdirection : old.direction = .backward) :
      Updated c before after old link
        { c with
          links := mapLast (fun l => { l with source := some (l.source.getD link.stamp) }) before
            ++ link :: after }
  | insertedAbove (result : Formula) (hresult : link.result? (c.tip before).1 = some result)
      (hdirection : old.direction = .backward) (hformula : (c.tip before).1 ≠ result) :
      Updated c before after old link
        { c with
          links := mapLast (unlink link.stamp) before
            ++ { Link.new result c.stamp .backward with source := some link.stamp }
              :: link :: after
          stamp := c.stamp.next }

section Update

variable {c next : Chain} {before after : List Link} {old link : Link}
  (hlinks : c.links = before ++ old :: after)
include hlinks

theorem updated_recordForward {result : Formula}
    (hresult : link.result? (c.tip before).1 = some result)
    (hdirection : old.direction = .forward) :
    Updated c before after old link
      (c.recordForward before.length old link (c.tip before).2 result) := by
  have hbelow : c.hasSource (before.length + 1) link.stamp
      = after.head?.any (·.source == some link.stamp) := by
    have hlen : before.length + 1 = (before ++ [old]).length := by simp
    rw [hlen]
    exact hasSource_split (hlinks.trans (List.append_cons ..)) link.stamp
  unfold recordForward
  rw [hbelow]
  split
  . next h =>
    rw [setLink_split hlinks]
    refine .rewritten result hresult hdirection h.1 ?_
    intro next hnext hsource
    simp [hnext, hsource] at h
  . next h =>
    have htied : link.source = some (c.tip before).2 →
        ∃ next, after.head? = some next ∧ next.source = some link.stamp := by
      intro hsource
      simpa [hsource, Option.any_eq_true] using h
    split
    . next hformula =>
      subst hformula
      rw [setLink_split hlinks]
      exact .explained hresult hdirection htied
    . next hformula =>
      dsimp only
      let new : Link :=
        { link with formula := result, stamp := c.stamp, source := some (c.tip before).2 }
      have hlen : before.length + 1 = (before ++ [new]).length := by simp
      rw [hlinks, insertIdx_split, List.append_cons, hlen, modify_split, ← List.append_cons]
      exact .inserted result hresult hdirection hformula htied

theorem recordBackward_split (above result : Formula) :
    c.recordBackward before.length link above result
      =
    if before.getLast?.any (·.source == some link.stamp) && !c.isSourceAbove before.length then
      { c with
        links := mapLast (fun l => { l with formula := result, stamp := c.stamp }) before
          ++ link :: after
        stamp := c.stamp.next }
    else if above = result then
      { c with
        links := mapLast (fun l => { l with source := some (l.source.getD link.stamp) }) before
          ++ link :: after }
    else
      { c with
        links := mapLast (unlink link.stamp) before
          ++ { Link.new result c.stamp .backward with source := some link.stamp } :: link :: after
        stamp := c.stamp.next } := by
  have hlen : ∀ f, before.length = (mapLast f before).length := fun f => (length_mapLast f _).symm
  have hset : ∀ f, (c.modifyAbove before.length f).setLink before.length link
      = { c with links := mapLast f before ++ link :: after } := by
    intro f
    rw [modifyAbove_split hlinks, hlen f, setLink_split rfl]
  unfold recordBackward
  dsimp only
  rw [hset, hset, setLink_split hlinks, modifyAbove_split hlinks, modifyAbove_split rfl]
  dsimp only
  rw [hlen (unlink link.stamp), insertIdx_split, ← hlen]
  split
  . next hzero =>
    rw [List.length_eq_zero_iff.mp hzero, List.getLast?_nil, Option.any_none]
  . next i hsucc =>
    obtain rfl | ⟨init, last, rfl⟩ := List.eq_nil_or_concat' before
    . simp at hsucc
    . have hi : i = init.length := by simpa using hsucc.symm
      rw [List.append_assoc, List.singleton_append] at hlinks
      simp only [hi, hasSource_split hlinks, List.head?_cons, List.getLast?_concat]

theorem updated_recordBackward {result : Formula}
    (hresult : link.result? (c.tip before).1 = some result)
    (hdirection : old.direction = .backward) :
    Updated c before after old link
      (c.recordBackward before.length link (c.tip before).1 result) := by
  rw [recordBackward_split hlinks]
  split
  . next h =>
    obtain rfl | ⟨init, above, rfl⟩ := List.eq_nil_or_concat' before
    . simp at h
    . rw [List.append_assoc, List.singleton_append] at hlinks
      rw [List.length_append, List.length_singleton, isSourceAbove_split hlinks] at h
      simp only [List.getLast?_concat, Option.any_some, Bool.and_eq_true, beq_iff_eq,
        Bool.not_eq_true'] at h
      rw [mapLast_concat, List.append_assoc, List.singleton_append]
      refine .rewrittenAbove init above rfl result (by simpa using hresult) hdirection h.1 ?_
      intro l hl hsource
      simp [hl, hsource] at h
  . split
    . next hformula =>
      subst hformula
      exact .explainedAbove hresult hdirection
    . next hformula => exact .insertedAbove result hresult hdirection hformula

theorem updated_of_update_eq_ok (h : c.update before.length link = .ok next) :
    Updated c before after old link next := by
  unfold update at h
  rw [link_split hlinks, above_split hlinks] at h
  simp only [bind, Except.bind] at h
  split at h
  . next hresult =>
    simp only [Except.ok.injEq] at h
    rw [← h, setLink_split hlinks]
    exact .stored hresult
  . next result hresult =>
    split at h
    . next hdirection =>
      simp only [Except.ok.injEq] at h
      exact h ▸ updated_recordForward hlinks hresult hdirection
    . next hdirection =>
      simp only [Except.ok.injEq] at h
      exact h ▸ updated_recordBackward hlinks hresult hdirection

end Update

@[simp]
theorem formula_unlink (stamp : Stamp) (link : Link) :
    (unlink stamp link).formula = link.formula := by
  unfold unlink
  split <;> rfl

section Copy

variable (link : Link) (change : Change)

@[simp]
theorem formula_changed : (changed link change).formula = link.formula := by
  cases change <;> rfl

@[simp]
theorem stamp_changed : (changed link change).stamp = link.stamp := by
  cases change <;> rfl

@[simp]
theorem source_changed : (changed link change).source = link.source := by
  cases change <;> rfl

@[simp]
theorem direction_changed : (changed link change).direction = link.direction := by
  cases change <;> rfl

end Copy

inductive Applied (c : Chain) (before after : List Link) (link : Link) : Action → Chain → Prop where
  | toggled :
      Applied c before after link .toggleEditing
        { c with links := before ++ { link with editing := !link.editing } :: after }
  | turnedBackward (hdirection : link.direction = .forward) :
      Applied c before after link .toggleDirection
        { c with links := before ++ { link with source := none, direction := .backward } :: after }
  | turnedForward (hdirection : link.direction = .backward) :
      Applied c before after link .toggleDirection
        { c with
          links := mapLast (unlink link.stamp) before ++ { link with direction := .forward }
            :: after }
  | deleted (hafter : after ≠ []) :
      Applied c before after link .delete
        { c with
          links := mapLast (unlink link.stamp) before ++ after.modifyHead (unlink link.stamp) }
  | changed (change : Change) (next : Chain)
      (hnext : Updated c before after link (Chain.changed link change) next) :
      Applied c before after link (.change change) next

theorem exists_applied_of_apply_eq_ok {c next : Chain} {edit : Edit} (h : c.apply edit = .ok next) :
    ∃ before link after, c.links = before ++ link :: after ∧ before.length = edit.line
      ∧ Applied c before after link edit.action next := by
  unfold apply at h
  obtain ⟨link, hlink, h⟩ := exists_of_bind_eq_ok h
  obtain ⟨before, after, hlinks, hlen⟩ := exists_split_of_getElem? (link_eq_ok.mp hlink)
  refine ⟨before, link, after, hlinks, hlen, ?_⟩
  rw [← hlen] at h
  cases haction : edit.action with
  | change change =>
    simp only [haction] at h
    exact .changed change next (updated_of_update_eq_ok hlinks h)
  | toggleDirection =>
    simp only [haction, Except.ok.injEq] at h
    rw [← h, turn]
    split
    . next hdirection =>
      rw [setLink_split hlinks]
      exact .turnedBackward hdirection
    . next hdirection =>
      rw [setLink_split hlinks, modifyAbove_split rfl]
      exact .turnedForward hdirection
  | toggleEditing =>
    simp only [haction, Except.ok.injEq] at h
    rw [← h, setLink_split hlinks]
    exact .toggled
  | delete =>
    simp only [haction, delete] at h
    split at h
    . simp at h
    . next hlast =>
      have hlen' : before.length = (mapLast (unlink link.stamp) before).length :=
        (length_mapLast ..).symm
      simp only [Except.ok.injEq] at h
      rw [← h, hlinks, eraseIdx_split, modifyAbove_split rfl]
      dsimp only
      rw [hlen', modify_length_split]
      refine .deleted ?_
      rintro rfl
      simp [hlinks] at hlast

def applyAll (c : Chain) (edits : List Edit) : Except Fault Chain :=
  Run.result apply c edits

def throughout (test : Chain → Edit → Bool) (c : Chain) (edits : List Edit) : Bool :=
  Run.throughout apply test c edits

end ProofDesk.Chain
