import Patricia.Cli.Run

/-
  The command line. It reads the document that a request names, and hands everything else over.
-/

namespace Patricia.Cli

/-- The bytes of a file, if it can be read. -/
def readFile? (name : String) : IO (Option Bytes) := do
  try
    let b ← IO.FS.readBinFile name
    return some b.toList
  catch _ =>
    return none

/-- Reads what a request asks for. -/
def gather (r : Request) : IO Inputs := do
  match r.tool with
  | some (.verify o) =>
    match o.source with
    | .text source =>
      if source = "stdin" then
        let b ← (← IO.getStdin).readBinToEnd
        return ⟨b.toList, fun _ => none⟩
      else
        let b ← readFile? source
        return ⟨[], fun _ => b⟩
    | _ => return ⟨[], fun _ => none⟩
  | _ => return ⟨[], fun _ => none⟩

/-- Writes what a run has to say, and returns its exit code. -/
def write : Outcome → IO UInt32
  | .stopped code out => do
    IO.print out
    if code ≠ 0 then IO.eprintln "usage error; try -h"
    return code.toUInt32
  | .finished code out err => do
    IO.print out
    err.forM IO.eprint
    return code.toUInt32
  | .escaped e => do
    IO.eprintln e.message
    return 1

end Patricia.Cli

open Patricia.Cli in
/-- Runs the command once. -/
def main (args : List String) : IO UInt32 := do
  let host := Host.usual false
  match Request.parse host args with
  | .error _ => write (run host .initial ⟨[], fun _ => none⟩ args).2
  | .ok r => write (run host .initial (← gather r) args).2
