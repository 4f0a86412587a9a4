import ProofDesk.CommandLine.Run

/-!
This module contains the program: it reads the files that its arguments name, prints the report, and
ends with its status.
-/

namespace ProofDesk.CommandLine

def usage : String :=
  "usage: (check START END | start START END [--chain] | "
    ++ "replay --edits FILE [--snapshot FILE] [--chain]) [--config FILE] [--verbose]"

def readFile? (path : String) : IO (Option String) := do
  try
    return some (← IO.FS.readFile path)
  catch _ =>
    return none

def runWithFiles (arguments : Arguments) : IO UInt32 := do
  let contents ← arguments.files.mapM fun path => do return (path, ← readFile? path)
  let outcome := (run (fun path => (contents.lookup path).join) arguments).outcome
  IO.print outcome.output
  if let some message := outcome.message then
    IO.eprintln message
  return outcome.status.toUInt32

end ProofDesk.CommandLine

def main (texts : List String) : IO UInt32 := do
  match ProofDesk.CommandLine.Arguments.ofList? texts with
  | some arguments => ProofDesk.CommandLine.runWithFiles arguments
  | none =>
    IO.eprintln ProofDesk.CommandLine.usage
    return 2
