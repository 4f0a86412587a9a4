import ProofDesk.Chain.EditJson
import ProofDesk.CommandLine.Arguments
import ProofDesk.CommandLine.Report
import ProofDesk.Derivation.EditJson
import ProofDesk.Journal

/-!
This module contains what a call of the program prints and how it ends, given the files that it can
read.
-/

namespace ProofDesk.CommandLine

abbrev Files := String → Option String

structure Report where
  lines : List String
  failure : Option String
  deriving DecidableEq, Repr

namespace Report

def ok (lines : List String) : Report :=
  ⟨lines, none⟩

def fail (message : String) : Report :=
  ⟨[], some message⟩

def ofExcept : Except String (List String) → Report
  | .ok lines => .ok lines
  | .error message => .fail message

end Report

def check (problem : Problem) : Report :=
  ⟨problemLines problem, if problem.isReady then none else some "statement is not ready"⟩

def read (files : Files) (path : String) : Except String String :=
  match files path with
  | some text => .ok text
  | none => .error s!"failed to read {path}"

def orFail (message : String) : Except ε α → Except String α
  | .ok a => .ok a
  | .error _ => .error message

def printDerivation (d : Derivation) : Except String (List String) :=
  match derivationLines d with
  | .ok lines => .ok lines
  | .error fault => .error fault.message

def start (settings : Settings) (problem : Problem) (chain : Bool) : Report :=
  match problem.formulas? with
  | none => check problem
  | some (start, goal) =>
    if chain then .ok (chainLines (.begin start goal))
    else .ofExcept (printDerivation (.begin start goal settings.goalDirection))

structure Editor (σ ε : Type) where
  readEdit : Json → Option ε
  describe : ε → String
  apply : σ → ε → Except Fault σ
  encode : σ → String

def derivationEditor : Editor Derivation Derivation.Edit where
  readEdit := Derivation.Edit.ofJson?
  describe edit := edit.toRecord.describe
  apply := Derivation.apply
  encode := Derivation.encode

def chainEditor : Editor Chain Chain.Edit where
  readEdit := Chain.Edit.ofJson?
  describe edit := edit.toRecord.describe
  apply := Chain.apply
  encode := Chain.encode

def readWithin? (decode : Json → Option α) (text : String) : Option α :=
  match Json.ofText? text with
  | some json => if json.depth ≤ TaggedJson.maxDepth then decode json else none
  | none => none

def readEdit? (editor : Editor σ ε) (text : String) : Option ε :=
  readWithin? editor.readEdit text

def readEdits? (editor : Editor σ ε) (text : String) : Option (List ε) :=
  readWithin? (Json.list? editor.readEdit) text

def applyAll (editor : Editor σ ε) (count : Nat) :
    List (ε × Nat) → Journal σ → Except String (Journal σ)
  | [], journal => .ok journal
  | (edit, i) :: edits, journal =>
    match journal.apply editor.encode (editor.apply · edit) with
    | .ok journal => applyAll editor count edits journal
    | .error _ => .error s!"edit {i + 1} of {count} rejected: {editor.describe edit}"

def replay (editor : Editor σ ε) (files : Files) (editsPath : String) (state : σ) :
    Except String σ := do
  let text ← read files editsPath
  match readEdits? editor text with
  | none => .error "invalid edit list"
  | some edits =>
    (applyAll editor edits.length edits.zipIdx (.begin state)).map Journal.state

def readSnapshot (files : Files) : Option String → Except String String
  | some path => read files path
  | none => .ok ""

def replayStored (settings : Settings) (files : Files) (snapshot : Option String) (edits : String)
    (chain : Bool) : Except String (List String) := do
  let text ← readSnapshot files snapshot
  if chain then
    let state ← orFail "invalid chain snapshot" (Chain.decode settings text)
    let state ← replay chainEditor files edits state
    return chainLines state
  else
    let state ← orFail "invalid proof snapshot" (Derivation.decode settings text)
    let state ← replay derivationEditor files edits state
    printDerivation state

def loadSettings (files : Files) : Option String → Except String Settings
  | none => .ok .standard
  | some path =>
    match (files path).bind Settings.ofText? with
    | some settings => .ok settings
    | none => .error s!"failed to load config {path}"

def run (files : Files) (arguments : Arguments) : Report :=
  match loadSettings files arguments.config with
  | .error message => .fail message
  | .ok settings =>
    match arguments.command with
    | .check start goal => check ⟨start, goal⟩
    | .start startText goal chain => start settings ⟨startText, goal⟩ chain
    | .replay snapshot edits chain =>
      .ofExcept (replayStored settings files snapshot edits chain)

def Arguments.files (arguments : Arguments) : List String :=
  arguments.config.toList ++
    match arguments.command with
    | .replay snapshot edits _ => snapshot.toList ++ [edits]
    | _ => []

structure Outcome where
  status : Nat
  output : String
  message : Option String
  deriving DecidableEq, Repr

def Report.outcome (r : Report) : Outcome where
  status := if r.failure.isSome then 1 else 0
  output := String.join (r.lines.map (· ++ "\n"))
  message := r.failure.map ("Error: " ++ ·)

def call (files : Files) (texts : List String) : Outcome :=
  match Arguments.ofList? texts with
  | some arguments => (run files arguments).outcome
  | none => ⟨2, "", none⟩

end ProofDesk.CommandLine
