import ProofDesk.Derivation.Check
import ProofDesk.Derivation.Generated
import ProofDesk.Derivation.Prune

/-!
This module contains the replacement of a line by an edited copy, with all that follows from it: a
backward step that fits regenerates the lines of its goals, and a forward step that fits changes the
formula of its line, justifies it as it is, or puts its conclusion in front of it.
-/

namespace ProofDesk.Derivation

def setLine (d : Derivation) (i : Nat) (line : Line) : Derivation :=
  { d with rows := d.rows.modify i fun row => { row with line } }

def insertRow (d : Derivation) (i : Nat) (row : Row) : Derivation :=
  { d with rows := d.rows.insertIdx i row }

def removeAround (rows : List Row) (i : Nat) (doomed : List Nat) : List Row × Nat :=
  doomed.foldr
    (fun j (rows, i) =>
      if j = i then (rows, i) else (removeRow rows j, if j < i then i - 1 else i))
    (rows, i)

def removeInside (header : Label) : Nat → List Row → List Row × Nat
  | 0, rows => (rows, 0)
  | i + 1, rows =>
    if rows[i]?.any (·.label.isInside header) then removeInside header i (removeRow rows i)
    else (rows, i + 1)

def goalLine (goal : Formula) (stamp source : Stamp) : Line :=
  { Line.new goal stamp (.unknown .backward) true true with source := some source }

def assumptionLine (premise : Formula) (stamp source : Stamp) : Line :=
  { Line.new premise stamp .assumption true false with source := some source }

def openSubproof (d : Derivation) (i : Nat) (header : Label) (source : Stamp)
    (premise goal : Formula) : Derivation :=
  let (rows, i) := removeInside header i d.rows
  let first := header.child 1
  let second := header.child 2
  let assumption := assumptionLine premise d.stamp source
  let subgoal := goalLine goal d.stamp.next source
  let rows := rows.modify i fun row =>
    { row with line := { row.line with arguments := [some first, some second] } }
  { d with
    rows := rows.take i ++ [⟨first, assumption⟩, ⟨second, subgoal⟩] ++ rows.drop i
    stamp := d.stamp.next.next }

structure Supply where
  derivation : Derivation
  inserted : Nat
  arguments : List (Option Label)

def supplier? (rows : List Row) (i inserted : Nat) (base : Label) (goal : Formula) :
    Option Label :=
  let earlier := (rows.take i).find? fun row =>
    row.line.formula == goal && row.label.visibleAt base
  let added := ((rows.drop i).take inserted).find? fun row => row.line.formula == goal
  (earlier <|> added).map Row.label

def Supply.next (i : Nat) (base : Label) (source : Stamp) (s : Supply) (goal : Formula) : Supply :=
  let d := s.derivation
  match supplier? d.rows i s.inserted base goal with
  | some label => { s with arguments := s.arguments ++ [some label] }
  | none =>
    let label := base.moveLast s.inserted
    let d := d.insertRow (i + s.inserted) ⟨label, goalLine goal d.stamp source⟩
    { derivation := { d with stamp := d.stamp.next }
      inserted := s.inserted + 1
      arguments := s.arguments ++ [some label] }

def supplyGoals (d : Derivation) (i : Nat) (base : Label) (source : Stamp) (goals : List Formula) :
    Derivation :=
  let s := goals.foldl (Supply.next i base source) ⟨d, 0, []⟩
  let rows := s.derivation.rows
  let rows := if 0 < s.inserted then shiftFrom base (i + s.inserted) s.inserted rows else rows
  { s.derivation with
    rows := rows.modify (i + s.inserted) fun row =>
      { row with line := { row.line with arguments := s.arguments } } }

def expand (d : Derivation) (i : Nat) (line : Line) (previous : Stamp) :
    Except Fault Derivation := do
  let d := d.setLine i line
  let (rows, i) := removeAround d.rows i (generated d.rows previous)
  let d := { d with rows }
  let row ← d.row i
  let goals ← liftStep (row.line.step.reduce [row.line.formula])
  if row.line.step.rule = some .directProof then
    match goals with
    | [premise, goal] => .ok (d.openSubproof i row.label line.stamp premise goal)
    | _ => .error (.argumentCount i 2 goals.length)
  else
    .ok (d.supplyGoals i row.label line.stamp goals)

def conclusionLine (line : Line) (conclusion : Formula) (stamp : Stamp) : Line :=
  { line with
    formula := conclusion
    fixed := false
    editable := true
    stamp
    source := some stamp }

def unlink (previous : Stamp) (row : Row) : Row :=
  if row.line.source = some previous then { row with line := { row.line with source := none } }
  else row

def reset (following : Option Stamp) (row : Row) : Row :=
  if row.line.source = none ∨ row.line.source = following then
    { row with
      line := .new row.line.formula row.line.stamp (.unknown .forward) row.line.fixed
        row.line.editable }
  else row

/--
Put the conclusion of a forward line in front of row `i`. The line that was there keeps its formula,
but loses a step that has nothing behind it any more. `following` is the stamp of the line after it.
-/
def insertConclusion (d : Derivation) (i : Nat) (label : Label) (line : Line)
    (conclusion : Formula) (previous : Stamp) (following : Option Stamp) : Derivation :=
  let new : Row := ⟨label, conclusionLine line conclusion d.stamp⟩
  let rows := shiftFrom label (i + 1) 1 (d.rows.insertIdx i new)
  { d with
    rows := (rows.map (unlink previous)).modify (i + 1) (reset following)
    stamp := d.stamp.next }

/--
Store a forward line that fits, with the conclusion of its step. `previous` is the stamp of the line
that it replaces and `following` that of the line after it.
-/
def record (d : Derivation) (i : Nat) (label : Label) (line : Line) (conclusion : Formula)
    (previous : Stamp) (following : Option Stamp) : Derivation :=
  if line.source = some previous ∧ generated d.rows previous = [] then
    -- Nothing depends on the old formula.
    { d.setLine i { line with
        formula := conclusion
        stamp := d.stamp
        source := some d.stamp } with
      stamp := d.stamp.next }
  else if line.formula = conclusion then
    d.setLine i { line with source := some (line.source.getD line.stamp) }
  else
    d.insertConclusion i label line conclusion previous following

def updateBackward (d : Derivation) (i : Nat) (row : Row) (line : Line) :
    Except Fault Derivation :=
  if line.step.fits [line.formula] then d.expand i line row.line.stamp
  else .ok (d.setLine i line)

def updateForward (d : Derivation) (i : Nat) (row : Row) (line : Line) :
    Except Fault Derivation := do
  match ← d.cited line.arguments with
  | some premises =>
    if line.step.fits premises then do
      let conclusion ← liftStep (line.step.conclude premises)
      let following := d.rows[i + 1]?.map (·.line.stamp)
      return d.record i row.label line conclusion row.line.stamp following
    else
      .ok (d.setLine i line)
  | none => .ok (d.setLine i line)

def replaceLine (d : Derivation) (i : Nat) (row : Row) (line : Line) : Except Fault Derivation :=
  if line.step.isComplete then
    match line.step.direction with
    | .backward => d.updateBackward i row line
    | .forward => d.updateForward i row line
  else
    .ok (d.setLine i line)

def update (d : Derivation) (i : Nat) (line : Line) : Except Fault Derivation := do
  let row ← d.row i
  let next ← d.replaceLine i row line
  return { next with rows := prune next.rows }

end ProofDesk.Derivation
