import ProofDesk.Derivation.Basic
import ProofDesk.Json.Writer
import ProofDesk.Settings
import ProofDesk.Snapshot.Code
import ProofDesk.Text.Blank

/-!
This module contains the stored form of derivations. The links between lines are not stored, and a
derivation that is read back has none.
-/

namespace ProofDesk.Derivation

structure LineRecord where
  formula : String
  rule : Int
  forward : Bool
  -- The side, or the connective of the law if there is one.
  version : Int
  fixed : Bool
  editable : Bool
  editing : Bool
  arguments : List (Option String)
  law : Option Int
  leftToRight : Option Bool
  chosen : Option Int
  deriving DecidableEq, Repr

structure Snapshot where
  start : Option String
  goal : Option String
  lines : List LineRecord
  labels : List String
  deriving DecidableEq, Repr

namespace LineRecord

def ofLine (line : Line) : LineRecord :=
  let step := line.step
  { formula := line.formula.keywordText
    rule := Code.ofChoice Rule.code step.rule
    forward := step.direction.isForward
    version :=
      match step.reading with
      | some reading => Code.ofChoice Lattice.code reading.lattice
      | none => Code.ofChoice Side.code step.side
    fixed := line.fixed
    editable := line.editable
    editing := line.editing
    arguments := line.arguments.map fun arg => arg.map Label.text
    law := step.reading.map fun reading => Code.ofChoice Law.code reading.law
    leftToRight := step.reading.map Reading.leftToRight
    chosen := step.reading.map fun _ => Code.ofChosen step.chosen }

def toStep (r : LineRecord) : Except SnapshotError Step := do
  let rule ← Code.toChoice Rule.ofCode? .ruleCode r.rule
  let step := Step.ofRule rule (.ofForward r.forward)
  match r.law, rule with
  | some code, some .equivalence =>
    let law ← Code.toChoice Law.ofCode? .lawCode code
    let lattice ← Code.toChoice Lattice.ofCode? .versionCode r.version
    return { step with
      reading := some ⟨law, r.leftToRight.getD true, lattice⟩
      chosen := r.chosen.bind Code.toChosen }
  | _, _ =>
    let side ← Code.toChoice Side.ofCode? .versionCode r.version
    return { step with side }

/--
The stored arguments of a line with the given number of slots. Labels that no line has are dropped,
and so are citations of a forward line that it cannot see.
-/
def toArguments (r : LineRecord) (own : Label) (labels : List Label) :
    Nat → List (Option String) → Except SnapshotError (List (Option Label))
  | 0, _ => .ok []
  | n + 1, [] => .ok (List.replicate (n + 1) none)
  | n + 1, none :: arguments => do
    let rest ← r.toArguments own labels n arguments
    return none :: rest
  | n + 1, some text :: arguments => do
    let label ← Stored.label text
    let rest ← r.toArguments own labels n arguments
    let isKept := labels.contains label && (!r.forward || label.visibleAt own)
    return (if isKept then some label else none) :: rest

def toLine (r : LineRecord) (own : Label) (labels : List Label) (stamp : Stamp) :
    Except SnapshotError Line := do
  let formula ← Stored.formula r.formula
  let step ← r.toStep
  let arguments ← r.toArguments own labels step.arity r.arguments
  return { Line.new formula stamp step r.fixed r.editable with editing := r.editing, arguments }

def toJson (r : LineRecord) : Json :=
  .obj ([("prop", .str r.formula), ("rule", .int r.rule), ("forward", .bool r.forward),
    ("version", .int r.version), ("fixed", .bool r.fixed), ("editable", .bool r.editable),
    ("editing", .bool r.editing), ("args", .arr (r.arguments.map (Json.orNull Json.str)))]
    ++ (r.law.map fun law => ("equiv", Json.int law)).toList
    ++ (r.leftToRight.map fun b => ("leftToRight", Json.bool b)).toList
    ++ (r.chosen.map fun n => ("matchNumber", Json.int n)).toList)

def ofJson? (json : Json) : Option LineRecord := do
  let field ← json.record? ["prop", "rule", "forward", "version", "fixed", "editable", "editing",
    "args", "equiv", "leftToRight", "matchNumber"]
  return {
    formula := ← Json.required? Json.str? (field "prop")
    rule := ← Json.defaulted? Json.int? 0 (field "rule")
    forward := ← Json.defaulted? Json.bool? false (field "forward")
    version := ← Json.defaulted? Json.int? 0 (field "version")
    fixed := ← Json.defaulted? Json.bool? false (field "fixed")
    editable := ← Json.defaulted? Json.bool? false (field "editable")
    editing := ← Json.defaulted? Json.bool? false (field "editing")
    arguments := ← Json.defaulted? (Json.list? (Json.nullable? Json.str?)) [] (field "args")
    law := ← Json.defaulted? (Json.nullable? Json.int?) none (field "equiv")
    leftToRight := ← Json.defaulted? (Json.nullable? Json.bool?) none (field "leftToRight")
    chosen := ← Json.defaulted? (Json.nullable? Json.int?) none (field "matchNumber") }

end LineRecord

namespace Snapshot

def empty : Snapshot :=
  ⟨none, none, [], []⟩

def ofDerivation (d : Derivation) : Snapshot where
  start := some d.start.keywordText
  goal := some d.goal.keywordText
  lines := d.rows.map fun row => .ofLine row.line
  labels := d.rows.map fun row => row.label.text

def disorder? : List Label → Option Nat
  | a :: b :: labels =>
    if a.before b then (disorder? (b :: labels)).map (· + 1) else some 1
  | _ => none

def toRows (labels : List Label) (records : List LineRecord) : Except SnapshotError (List Row) :=
  (labels.zip records).zipIdx.mapM fun ((label, record), i) =>
    (record.toLine label labels ⟨i⟩).map (Row.mk label)

def toDerivation (s : Snapshot) (settings : Settings) : Except SnapshotError Derivation := do
  let start ← Stored.formula (s.start.getD settings.start)
  let goal ← Stored.formula (s.goal.getD settings.goal)
  if s.lines.isEmpty || s.labels.isEmpty then
    .ok (.begin start goal settings.goalDirection)
  else
    let labels ← (s.labels.take s.lines.length).mapM Stored.label
    match disorder? labels with
    | some i => .error (.labelOrder i)
    | none =>
      let rows ← toRows labels s.lines
      .ok ⟨start, goal, rows, ⟨rows.length⟩⟩

def toJson (s : Snapshot) : Json :=
  .obj ((s.start.map fun text => ("startProp", Json.str text)).toList
    ++ (s.goal.map fun text => ("endProp", Json.str text)).toList
    ++ [("lines", .arr (s.lines.map LineRecord.toJson)), ("labels", .arr (s.labels.map .str))])

def ofJson? (json : Json) : Option Snapshot := do
  let field ← json.record? ["startProp", "endProp", "lines", "labels"]
  return {
    start := ← Json.defaulted? (Json.nullable? Json.str?) none (field "startProp")
    goal := ← Json.defaulted? (Json.nullable? Json.str?) none (field "endProp")
    lines := ← Json.defaulted? (Json.list? LineRecord.ofJson?) [] (field "lines")
    labels := ← Json.defaulted? (Json.list? Json.str?) [] (field "labels") }

def ofText (text : String) : Except SnapshotError Snapshot :=
  if Text.isBlank text then .ok .empty
  else
    match (Json.ofText? text).bind ofJson? with
    | some s => .ok s
    | none => .error .json

end Snapshot

def encode (d : Derivation) : String :=
  (Snapshot.ofDerivation d).toJson.text

def decode (settings : Settings) (text : String) : Except SnapshotError Derivation := do
  let snapshot ← Snapshot.ofText text
  snapshot.toDerivation settings

end ProofDesk.Derivation
