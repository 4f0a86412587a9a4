import ProofDesk.Chain.Basic
import ProofDesk.Json.Writer
import ProofDesk.Settings
import ProofDesk.Snapshot.Code
import ProofDesk.Text.Blank

/-!
This module contains the stored form of equivalence chains. The ties between links are not stored,
and a chain that is read back has none.
-/

namespace ProofDesk.Chain

structure LinkRecord where
  formula : String
  law : Int
  leftToRight : Bool
  lattice : Int
  chosen : Int
  forward : Bool
  deriving DecidableEq, Repr

structure Snapshot where
  start : Option String
  goal : Option String
  links : List LinkRecord
  deriving DecidableEq, Repr

namespace LinkRecord

def ofLink (link : Link) : LinkRecord where
  formula := link.formula.keywordText
  law := Code.ofChoice Law.code link.reading.law
  leftToRight := link.reading.leftToRight
  lattice := Code.ofChoice Lattice.code link.reading.lattice
  chosen := Code.ofChosen link.chosen
  forward := link.direction.isForward

def toLink (r : LinkRecord) (stamp : Stamp) : Except SnapshotError Link := do
  let formula ← Stored.formula r.formula
  let law ← Code.toChoice Law.ofCode? .lawCode r.law
  let lattice ← Code.toChoice Lattice.ofCode? .versionCode r.lattice
  return { Link.new formula stamp (.ofForward r.forward) with
    reading := ⟨law, r.leftToRight, lattice⟩
    chosen := Code.toChosen r.chosen }

def toJson (r : LinkRecord) : Json :=
  .obj [("prop", .str r.formula), ("rule", .int r.law), ("leftToRight", .bool r.leftToRight),
    ("version", .int r.lattice), ("matchNumber", .int r.chosen), ("forward", .bool r.forward)]

def ofJson? (json : Json) : Option LinkRecord := do
  let field ← json.record? ["prop", "rule", "leftToRight", "version", "matchNumber", "forward"]
  return {
    formula := ← Json.required? Json.str? (field "prop")
    law := ← Json.defaulted? Json.int? 0 (field "rule")
    leftToRight := ← Json.defaulted? Json.bool? true (field "leftToRight")
    lattice := ← Json.defaulted? Json.int? 0 (field "version")
    chosen := ← Json.defaulted? Json.int? (-1) (field "matchNumber")
    forward := ← Json.defaulted? Json.bool? true (field "forward") }

end LinkRecord

namespace Snapshot

def empty : Snapshot :=
  ⟨none, none, []⟩

def ofChain (c : Chain) : Snapshot where
  start := some c.start.keywordText
  goal := some c.goal.keywordText
  links := c.links.map .ofLink

def toChain (s : Snapshot) (settings : Settings) : Except SnapshotError Chain := do
  let start ← Stored.formula (s.start.getD settings.start)
  let goal ← Stored.formula (s.goal.getD settings.goal)
  if s.links.isEmpty then
    .ok (.begin start goal)
  else
    let links ← s.links.zipIdx.mapM fun (record, i) => record.toLink ⟨i + 1⟩
    .ok ⟨start, ⟨0⟩, goal, links, ⟨links.length + 1⟩⟩

def toJson (s : Snapshot) : Json :=
  .obj ((s.start.map fun text => ("startProp", Json.str text)).toList
    ++ (s.goal.map fun text => ("endProp", Json.str text)).toList
    ++ [("lines", .arr (s.links.map LinkRecord.toJson))])

def ofJson? (json : Json) : Option Snapshot := do
  let field ← json.record? ["startProp", "endProp", "lines"]
  return {
    start := ← Json.defaulted? (Json.nullable? Json.str?) none (field "startProp")
    goal := ← Json.defaulted? (Json.nullable? Json.str?) none (field "endProp")
    links := ← Json.defaulted? (Json.list? LinkRecord.ofJson?) [] (field "lines") }

def ofText (text : String) : Except SnapshotError Snapshot :=
  if Text.isBlank text then .ok .empty
  else
    match (Json.ofText? text).bind ofJson? with
    | some s => .ok s
    | none => .error .json

end Snapshot

def encode (c : Chain) : String :=
  (Snapshot.ofChain c).toJson.text

def decode (settings : Settings) (text : String) : Except SnapshotError Chain := do
  let snapshot ← Snapshot.ofText text
  snapshot.toChain settings

end ProofDesk.Chain
