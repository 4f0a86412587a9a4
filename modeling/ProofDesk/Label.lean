import ProofDesk.Text.Blank
import ProofDesk.Text.Quoted

/-!
This module contains the labels of derivation lines: paths of positive numbers, where `2.1` is the
first line of the subproof that justifies line `2`. The lines of a subproof stand before the line
they justify.
-/

namespace ProofDesk

structure Label where
  parts : List Nat
  deriving DecidableEq, Repr, Inhabited

namespace Label

def maxPart : Nat := 4294967295

def movePart (n : Nat) (delta : Int) : Nat :=
  min (n + delta).toNat maxPart

def depth (l : Label) : Nat :=
  l.parts.length

def text (l : Label) : String :=
  ".".intercalate (l.parts.map toString)

def child (l : Label) (n : Nat) : Label :=
  ⟨l.parts ++ [n]⟩

def moveLast (l : Label) (delta : Int) : Label :=
  ⟨go l.parts⟩
where
  go : List Nat → List Nat
    | [] => []
    | [n] => [movePart n delta]
    | n :: ns => n :: go ns

def isInside (l header : Label) : Bool :=
  go l.parts header.parts
where
  go : List Nat → List Nat → Bool
    | a :: as, b :: bs => a == b && go as bs
    | _ :: _, [] => true
    | [], _ => false

/--
Proof order: part by part, and a label after the labels inside its subproof.
-/
def compare (a b : Label) : Ordering :=
  go a.parts b.parts
where
  go : List Nat → List Nat → Ordering
    | [], [] => .eq
    | [], _ :: _ => .gt
    | _ :: _, [] => .lt
    | a :: as, b :: bs => (Ord.compare a b).then (go as bs)

def before (a b : Label) : Bool :=
  a.compare b == .lt

/--
The label after `delta` lines have been put in (or taken out, if negative) just before the line
labelled `pos`. This moves `pos` itself and its later siblings with their subproofs, and nothing
else.
-/
def shift (l pos : Label) (delta : Int) : Label :=
  ⟨go pos.parts l.parts⟩
where
  go : List Nat → List Nat → List Nat
    | [n], m :: ms =>
      if n < m || (n == m && ms.isEmpty) then movePart m delta :: ms else m :: ms
    | n :: ns, m :: ms => if n == m then m :: go ns ms else m :: ms
    | _, ms => ms

/--
Whether the line labelled `l` may be cited at the line labelled `here`: it is an earlier sibling of
that line or of a subproof around it. What lies inside a finished subproof cannot be cited, nor can
the line that a subproof is to justify be cited inside it.
-/
def visibleAt (l here : Label) : Bool :=
  go l.parts here.parts
where
  go : List Nat → List Nat → Bool
    | a :: as, b :: bs => if a == b then go as bs else a < b && as.isEmpty
    | _, _ => false

def readPart? (text : List Char) : Option Nat :=
  let digits :=
    match text with
    | '+' :: rest => rest
    | _ => text
  if digits.isEmpty || !digits.all Char.isDigit then none
  else
    let n := digits.foldl (fun n c => 10 * n + (c.toNat - '0'.toNat)) 0
    if 0 < n && n ≤ maxPart then some n else none

def pieces : List Char → List (List Char)
  | [] => [[]]
  | c :: cs =>
    if c == '.' then [] :: pieces cs
    else
      match pieces cs with
      | piece :: rest => (c :: piece) :: rest
      | [] => [[c]]

def ofText? (text : String) : Option Label :=
  ((pieces text.toList).mapM fun piece => readPart? (Text.trim piece)).map Label.mk

end Label

structure LabelError where
  text : String
  deriving DecidableEq, Repr

def LabelError.message (e : LabelError) : String :=
  s!"invalid label {Text.quoted e.text}"

def Label.ofText (text : String) : Except LabelError Label :=
  match ofText? text with
  | some l => .ok l
  | none => .error ⟨text⟩

end ProofDesk
