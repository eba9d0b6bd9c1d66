import Patricia.Check
import Patricia.Json.Parse

/-
  What the command does not decide itself.

  Hosts differ in a few things that a run can show. The marker `--` as the value of an option, in
  the same argument, is dropped by older hosts, as it is wherever it stands, and kept by newer
  ones. Documents and the numbers in them are read up to limits. And since nodes and their
  encodings are nested, the stack may have no room for a job; for which ones is left open.
-/

namespace Patricia.Cli

/-- A job that goes down nested data. -/
inductive Job
  /-- Checking a claim, and showing what was learned. -/
  | check (c : Claim) (mode : KeyMode) (shows : Bool)
  /-- Decoding the node that a text writes. -/
  | decode (text : String)

/-- What a run relies on. -/
structure Host where
  /-- The marker stays where it is the value of an option. -/
  keepsMarker : Bool
  /-- What is read of a document. -/
  limits : JsonText.Limits
  /-- The stack has room for a job. -/
  hasRoom : Job → Bool

/-- A host with the usual limits, and room for everything. -/
def Host.usual (keepsMarker : Bool) : Host where
  keepsMarker := keepsMarker
  limits := ⟨990, 4300⟩
  hasRoom := fun _ => true

end Patricia.Cli
