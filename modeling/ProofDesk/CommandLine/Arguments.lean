/-!
This module contains the arguments of the command line and how they are read.
-/

namespace ProofDesk.CommandLine

inductive Command where
  | check (start goal : String)
  | start (start goal : String) (chain : Bool)
  | replay (snapshot : Option String) (edits : String) (chain : Bool)
  deriving DecidableEq, Repr

structure Arguments where
  config : Option String
  command : Command
  deriving DecidableEq, Repr

structure Given where
  flags : List String
  options : List (String × String)
  operands : List String
  deriving DecidableEq, Repr

structure Known where
  flags : List String
  options : List String

namespace Given

def empty : Given :=
  ⟨[], [], []⟩

def addFlag (g : Given) (name : String) : Option Given :=
  if g.flags.contains name then none else some { g with flags := g.flags ++ [name] }

def addOption (g : Given) (name value : String) : Option Given :=
  if value.isEmpty || (g.options.lookup name).isSome then none
  else some { g with options := g.options ++ [(name, value)] }

def addOperand (g : Given) (text : String) : Given :=
  { g with operands := g.operands ++ [text] }

end Given

def addShortFlags (known : Known) (g : Given) : List Char → Option Given
  | [] => some g
  | 'v' :: rest =>
    if known.flags.contains "verbose" then (g.addFlag "verbose").bind (addShortFlags known · rest)
    else none
  | _ => none

def splitLong (text : List Char) : String × Option String :=
  match text.dropWhile (· != '=') with
  | '=' :: value => (String.ofList (text.takeWhile (· != '=')), some (String.ofList value))
  | _ => (String.ofList text, none)

def isDashed (text : String) : Bool :=
  match text.toList with
  | '-' :: _ :: _ => true
  | _ => false

/--
Read arguments up to the end or to the first operand for which `stop` holds, which is left in front
of the rest. After `--` everything is an operand.
-/
def scan (known : Known) (stop : String → Bool) (g : Given) :
    List String → Option (Given × List String)
  | [] => some (g, [])
  | text :: rest =>
    match text.toList with
    | ['-', '-'] =>
      some (rest.foldl Given.addOperand g, [])
    | '-' :: '-' :: long =>
      match splitLong long with
      | (name, some value) =>
        if known.options.contains name then
          (g.addOption name value).bind fun g => scan known stop g rest
        else none
      | (name, none) =>
        if known.flags.contains name then (g.addFlag name).bind fun g => scan known stop g rest
        else if known.options.contains name then
          match rest with
          | value :: rest =>
            if isDashed value then none
            else (g.addOption name value).bind fun g => scan known stop g rest
          | [] => none
        else none
    | '-' :: c :: short =>
      (addShortFlags known g (c :: short)).bind fun g => scan known stop g rest
    | _ =>
      if stop text then some (g, text :: rest)
      else scan known stop (g.addOperand text) rest

def general : Known :=
  ⟨["verbose"], ["config"]⟩

def knownTo : String → Option Known
  | "check" => some general
  | "start" => some { general with flags := "chain" :: general.flags }
  | "replay" =>
    some ⟨"chain" :: general.flags, "snapshot" :: "edits" :: general.options⟩
  | _ => none

def command? (name : String) (g : Given) : Option Command :=
  let chain := g.flags.contains "chain"
  match name, g.operands with
  | "check", [start, goal] => some (.check start goal)
  | "start", [start, goal] => some (.start start goal chain)
  | "replay", [] =>
    (g.options.lookup "edits").map fun edits => .replay (g.options.lookup "snapshot") edits chain
  | _, _ => none

def Arguments.ofList? (texts : List String) : Option Arguments :=
  match scan general (fun _ => true) .empty texts with
  | some (before, name :: rest) => do
    let known ← knownTo name
    let (given, _) ← scan known (fun _ => false) .empty rest
    let command ← command? name given
    return ⟨(given.options ++ before.options).lookup "config", command⟩
  | _ => none

end ProofDesk.CommandLine
