import Scaffold.CommandLine.Arguments
import Scaffold.CommandLine.Report

/-!
Runs a command line on a file system.
-/
namespace Scaffold.CommandLine

/-- What a command line came to. -/
structure Outcome where
  /-- What is printed, but for the time it took. -/
  shown : String
  /-- The time is printed at the end. -/
  isTimed : Bool
  fault : Option Fault
  /-- The exit code. -/
  exit : Nat

namespace Outcome

def success (shown : String) (isTimed : Bool) : Outcome := ⟨shown, isTimed, none, 0⟩

def failure (shown : String) (f : Fault) : Outcome := ⟨shown, false, some f, 1⟩

/-- All that is printed, once the time is known. -/
def print (o : Outcome) (milliseconds : String) : String :=
  if o.isTimed then o.shown ++ Report.timing milliseconds else o.shown

end Outcome

def generate (job : Job) : StateM FileTree Outcome := do
  match ← job.run.run with
  | .ok o => pure (.success (Report.generated job.output o) true)
  | .error f => pure (.failure Report.nope f)

def check (job : Job) : StateM FileTree Outcome := do
  match job.generate (← get) with
  | .ok o => pure (.success (Report.checked o.tally) false)
  | .error f => pure (.failure Report.nope f)

/-- Prints the definitions, or writes them to a file in a directory that is there. -/
def types (job : Job) (output : Option String) : StateM FileTree Outcome := do
  let t ← get
  match job.projectTypes t, output with
  | .error f, _ => pure (.failure "" f)
  | .ok definitions, none => pure (.success (Projection.render definitions) false)
  | .ok definitions, some path =>
    match t.write? path (Projection.render definitions).toUTF8 with
    | none => pure (.failure "" (.access path .refused))
    | some t =>
      set t
      pure (.success (Report.typesWritten definitions.length path) false)

def Request.run (r : Request) : StateM FileTree Outcome := do
  match (← get).settings r.config with
  | .error f => pure (.failure "" f)
  | .ok settings =>
    match r.task with
    | .generate output => CommandLine.generate ⟨r.metadata, output, r.language, settings⟩
    | .check => CommandLine.check ⟨r.metadata, "", r.language, settings⟩
    | .types output => CommandLine.types ⟨r.metadata, "", r.language, settings⟩ output

def usage : String :=
  "Usage: modelgen [-v] <generate|check|types> [-m METADATA] [-c CONFIG] [-l LANGUAGE] [-o OUTPUT]\n"

def run (arguments : List String) : StateM FileTree Outcome :=
  match parse arguments with
  | .error .help => pure (.success usage false)
  | .error .misuse => pure ⟨"", false, none, 2⟩
  | .ok request => request.run

end Scaffold.CommandLine
