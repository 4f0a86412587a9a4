import ProofDesk.Chain.Basic

/-!
This module contains the edits of an equivalence chain. An edit either gives a new chain or is
rejected.
-/

namespace ProofDesk.Chain

inductive Change where
  | setLaw (law : Option Law)
  | setLeftToRight (leftToRight : Bool)
  | setLattice (lattice : Option Lattice)
  | setChosen (chosen : Option Nat)
  deriving DecidableEq, Repr

inductive Action where
  | change (change : Change)
  | toggleDirection
  | toggleEditing
  | delete
  deriving DecidableEq, Repr

structure Edit where
  line : Nat
  action : Action
  deriving DecidableEq, Repr

def setLink (c : Chain) (i : Nat) (link : Link) : Chain :=
  { c with links := c.links.set i link }

def hasSource (c : Chain) (i : Nat) (stamp : Stamp) : Bool :=
  c.links[i]?.any (·.source == some stamp)

def modifyAbove (c : Chain) (i : Nat) (f : Link → Link) : Chain :=
  match i with
  | 0 => c
  | i + 1 => { c with links := c.links.modify i f }

def unlink (stamp : Stamp) (link : Link) : Link :=
  if link.source = some stamp then { link with source := none } else link

def turn (c : Chain) (i : Nat) (link : Link) : Chain :=
  match link.direction with
  | .forward => c.setLink i { link with source := none, direction := .backward }
  | .backward => (c.setLink i { link with direction := .forward }).modifyAbove i (unlink link.stamp)

def delete (c : Chain) (i : Nat) (link : Link) : Except Fault Chain :=
  if i + 1 = c.links.length then
    .error (.notDeletable i)
  else
    let rest := modifyAbove { c with links := c.links.eraseIdx i } i (unlink link.stamp)
    .ok { rest with links := rest.links.modify i (unlink link.stamp) }

/--
Store a link whose place reads forward, where `result` follows from the formula stamped `above`:
change the formula of the link, justify it as it is, or put the result in front of it.
-/
def recordForward (c : Chain) (i : Nat) (old link : Link) (above : Stamp) (result : Formula) :
    Chain :=
  if link.source = some above ∧ !c.hasSource (i + 1) link.stamp then
    { c.setLink i { link with formula := result, stamp := c.stamp } with stamp := c.stamp.next }
  else if old.formula = result then
    c.setLink i { link with source := some (link.source.getD above) }
  else
    let new := { link with formula := result, stamp := c.stamp, source := some above }
    { c with
      links := (c.links.insertIdx i new).modify (i + 1) (unlink above)
      stamp := c.stamp.next }

def isSourceAbove (c : Chain) (i : Nat) : Bool :=
  match i with
  | i + 2 => c.links[i + 1]?.any fun link => c.hasSource i link.stamp
  | _ => false

/--
Store a link whose place reads backward, where it gives `result` for the formula above: change that
formula, justify it as it is, or put the result in between.
-/
def recordBackward (c : Chain) (i : Nat) (link : Link) (above result : Formula) : Chain :=
  let isTied :=
    match i with
    | 0 => false
    | i + 1 => c.hasSource i link.stamp
  if isTied && !c.isSourceAbove i then
    let c := c.modifyAbove i fun l => { l with formula := result, stamp := c.stamp }
    { c.setLink i link with stamp := c.stamp.next }
  else if above = result then
    (c.modifyAbove i fun l => { l with source := some (l.source.getD link.stamp) }).setLink i link
  else
    let new := { Link.new result c.stamp .backward with source := some link.stamp }
    let c := (c.setLink i link).modifyAbove i (unlink link.stamp)
    { c with links := c.links.insertIdx i new, stamp := c.stamp.next }

def update (c : Chain) (i : Nat) (link : Link) : Except Fault Chain := do
  let old ← c.link i
  let (above, aboveStamp) ← c.above i
  match link.result? above with
  | none => .ok (c.setLink i link)
  | some result =>
    match old.direction with
    | .forward => .ok (c.recordForward i old link aboveStamp result)
    | .backward => .ok (c.recordBackward i link above result)

def changed (link : Link) : Change → Link
  | .setLaw law => { link with reading := { link.reading with law } }
  | .setLeftToRight leftToRight => { link with reading := { link.reading with leftToRight } }
  | .setLattice lattice => { link with reading := { link.reading with lattice } }
  | .setChosen chosen => { link with chosen }

def apply (c : Chain) (edit : Edit) : Except Fault Chain := do
  let link ← c.link edit.line
  match edit.action with
  | .change change => c.update edit.line (changed link change)
  | .toggleDirection => .ok (c.turn edit.line link)
  | .toggleEditing => .ok (c.setLink edit.line { link with editing := !link.editing })
  | .delete => c.delete edit.line link

end ProofDesk.Chain
