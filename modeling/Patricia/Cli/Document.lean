import Patricia.Bytes
import Patricia.Cli.Host

/-
  Where the document with a claim comes from.

  The source `stdin` is the standard input, any other one the name of a file. What is read has to
  be UTF-8 and then JSON. `Directory` is a set of files in one place, seen from inside: a name
  resolves after empty and `.` components are dropped, and nothing outside can be reached.
-/

namespace Patricia.Cli

/-- Why a document cannot be read. -/
inductive ReadFault
  | unreadable
  | notUtf8
  | unread (f : JsonText.Unread)
  /-- The name holds the character NUL, which no file name does. -/
  | nulInName
deriving DecidableEq, Repr

/-- The text of a fault of reading; most faults told by others are shown by their kind. -/
def ReadFault.message : ReadFault → String
  | unreadable => "<OSError>"
  | notUtf8 => "<UnicodeDecodeError>"
  | unread .malformed => "<JSONDecodeError>"
  | unread .tooDeep => "<RecursionError>"
  | unread (.longNumber limit digits) =>
    "Exceeds the limit (" ++ toString limit ++ " digits) for integer string conversion: value has "
      ++ toString digits ++ " digits; use sys.set_int_max_str_digits() to increase the limit"
  | nulInName => "embedded null byte"

/-- What a run can read: the standard input, and files by name. -/
structure Inputs where
  stdin : Bytes
  file? : String → Option Bytes

namespace Inputs

/-- The bytes of a source. -/
def bytesOf (inputs : Inputs) (source : String) : Except ReadFault Bytes :=
  if source = "stdin" then .ok inputs.stdin
  else if source.contains '\x00' then .error .nulInName
  else
    match inputs.file? source with
    | some b => .ok b
    | none => .error .unreadable

/-- The document in a source. -/
def document (host : Host) (inputs : Inputs) (source : String) : Except ReadFault Json :=
  match inputs.bytesOf source with
  | .error f => .error f
  | .ok b =>
    match String.fromUTF8? ⟨b.toArray⟩ with
    | none => .error .notUtf8
    | some text =>
      match Json.parse host.limits text with
      | .error f => .error (.unread f)
      | .ok v => .ok v

end Inputs

/-- Files by their names. -/
abbrev Directory := List (String × Bytes)

namespace Directory

/-- The parts of a path that lead somewhere. -/
def steps (path : String) : List String :=
  (path.splitOn "/").filter (fun part => part ≠ "" ∧ part ≠ ".")

/-- The file that a name resolves to. A name that starts or ends with a slash, or ends with a dot
component, is none of a file. -/
def file? (d : Directory) (name : String) : Option Bytes :=
  let parts := name.splitOn "/"
  if parts.head? = some "" ∨ parts.getLast? = some "" ∨ parts.getLast? = some "." then none
  else (d.find? (fun f => steps f.1 = steps name)).map Prod.snd

end Directory

end Patricia.Cli
