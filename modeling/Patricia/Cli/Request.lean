import Patricia.Cli.Help
import Patricia.Cli.Host
import Patricia.Cli.Logging
import Patricia.Cli.Word

/-
  What a run is asked to do.

  Arguments are read from the left. Help and version end the reading where they stand; a wrong
  value or a missing one ends it as a usage error. What no option and no word of the command
  accounts for is left over: it is a usage error too, but only once the rest has been read. The
  first plain word names the tool and hands everything behind it to the options of that tool.
-/

namespace Patricia.Cli

/-- What is known of an option with a value. -/
inductive Setting
  | absent
  | text (t : String)
  /-- The option is given, but its value was the marker, and the host has dropped it. -/
  | void
deriving DecidableEq

/-- The setting made by a value in the same argument. -/
def Setting.ofAttached (host : Host) (value : List Char) : Setting :=
  if host.keepsMarker = false ∧ String.ofList value = "--" then .void
  else .text (String.ofList value)

/-- The options of the tool that checks a proof. -/
structure VerifyOptions where
  root : Setting := .absent
  key : Setting := .absent
  value : Setting := .absent
  /-- Where the document with the claim is read from. -/
  source : Setting := .absent
  /-- The key is hashed before it is looked up. -/
  hashKey : Bool := false
  /-- The trie stores keys as they are. -/
  rawKeys : Bool := false
  /-- The nodes learned from a valid proof are printed. -/
  showNodes : Bool := false
  /-- The entries given as plain words. -/
  entries : List String := []
deriving DecidableEq

/-- A tool with its options. -/
inductive Tool
  | verify (options : VerifyOptions)
  | decode (node : String)
deriving DecidableEq

/-- A level for the log, and the tool to run, if one is named. There is no level if its option was
left void. -/
structure Request where
  level : Option Level
  tool : Option Tool
deriving DecidableEq

/-- How reading the arguments may end without a request. -/
inductive Ending
  | help (topic : Topic)
  | version
  | usage
deriving DecidableEq, Repr

namespace Ending

/-- The exit code. -/
def code : Ending → Nat
  | help _ | version => 0
  | usage => 2

/-- What is printed. -/
def out : Ending → String
  | help topic => topic.text
  | version => versionText
  | usage => ""

end Ending

/-! ## The tool that decodes a node -/

/-- The options of the tool that decodes a node. -/
def decodeSpellings : List (Spelling Unit) :=
  [⟨"-h".toList, ()⟩, ⟨"--help".toList, ()⟩]

/-- Reads the one plain word of the decoding tool. `justRead` says that it was the word before,
where the marker may still follow; `left` that something is left over. -/
def readDecode (node : Option String) (justRead left : Bool) :
    List (String × Word Unit) → Except Ending (Tool × Bool)
  | [] =>
    match node with
    | some n => .ok (.decode n, left)
    | none => .error .usage
  | (_, .known _ attached) :: _ =>
    if attached.fitsFlag ['h'] then .error (.help .decode) else .error .usage
  | (_, .plain text) :: rest =>
    match node with
    | none => readDecode (some text) true left rest
    | some n => readDecode (some n) false true rest
  | (_, .marker) :: rest => readDecode node false (left || (node.isSome && !justRead)) rest
  | (_, .unknown) :: rest => readDecode node false true rest

/-! ## The tool that checks a proof -/

/-- The options of the tool that checks a proof, by name. -/
inductive VerifyOption
  | help
  | root
  | key
  | value
  | source
  | hashKey
  | rawKeys
  | showNodes
deriving DecidableEq

/-- The spellings of these options. -/
def verifySpellings : List (Spelling VerifyOption) :=
  [⟨"-h".toList, .help⟩, ⟨"--help".toList, .help⟩, ⟨"--root".toList, .root⟩,
    ⟨"--key".toList, .key⟩, ⟨"--value".toList, .value⟩, ⟨"--proof-file".toList, .source⟩,
    ⟨"--hash-key".toList, .hashKey⟩, ⟨"--raw-keys".toList, .rawKeys⟩,
    ⟨"--show".toList, .showNodes⟩]

/-- The setting made by an option with a value; none for an option without. -/
def VerifyOption.set? : VerifyOption → Option (Setting → VerifyOptions → VerifyOptions)
  | .root => some (fun t o => { o with root := t })
  | .key => some (fun t o => { o with key := t })
  | .value => some (fun t o => { o with value := t })
  | .source => some (fun t o => { o with source := t })
  | .help | .hashKey | .rawKeys | .showNodes => none

/-- The setting made by an option without a value. -/
def VerifyOption.setFlag : VerifyOption → VerifyOptions → VerifyOptions
  | .hashKey, o => { o with hashKey := true }
  | .rawKeys, o => { o with rawKeys := true }
  | .showNodes, o => { o with showNodes := true }
  | _, o => o

/-- Where the reading stands with respect to the one group of plain words. -/
inductive Group
  | before
  | inside
  | behind
deriving DecidableEq

/-- An option ends the group if it has begun. -/
def Group.close : Group → Group
  | before => before
  | inside | behind => behind

/-- Reads the options and plain words of the checking tool; `left` says that something is left
over. -/
def readVerify (host : Host) (o : VerifyOptions) (group : Group) (left : Bool) :
    List (String × Word VerifyOption) → Except Ending (Tool × Bool)
  | [] => .ok (.verify o, left)
  | (_, .known option attached) :: rest =>
    match option.set? with
    | some set =>
      match attached with
      | .value text => readVerify host (set (.ofAttached host text) o) group.close left rest
      | .letters _ => .error .usage
      | .nothing =>
        match rest with
        | (_, .plain text) :: rest' => readVerify host (set (.text text) o) group.close left rest'
        | _ => .error .usage
    | none =>
      if !attached.fitsFlag ['h'] then .error .usage
      else if option = .help then .error (.help .verify)
      else readVerify host (option.setFlag o) group.close left rest
  | (_, .plain text) :: rest =>
    match group with
    | .behind => readVerify host o .behind true rest
    | _ => readVerify host { o with entries := o.entries ++ [text] } .inside left rest
  | (_, .marker) :: rest =>
    match group with
    | .behind => readVerify host o .behind true rest
    | _ => readVerify host o .inside left rest
  | (_, .unknown) :: rest => readVerify host o group.close true rest

/-! ## The command -/

/-- The options of the command itself. -/
inductive TopOption
  | help
  | version
  | logLevel
deriving DecidableEq

/-- The spellings of these options. -/
def topSpellings : List (Spelling TopOption) :=
  [⟨"-h".toList, .help⟩, ⟨"--help".toList, .help⟩, ⟨"-v".toList, .version⟩,
    ⟨"--version".toList, .version⟩, ⟨"--log-level".toList, .logLevel⟩]

/-- Reads the arguments of the tool with a given name. -/
def readTool (host : Host) (name : String) (args : List String) : Except Ending (Tool × Bool) :=
  if name = "verify" then
    match classifyAll verifySpellings args with
    | none => .error .usage
    | some words => readVerify host {} .before false words
  else if name = "decode" then
    match classifyAll decodeSpellings args with
    | none => .error .usage
    | some words => readDecode none false false words
  else .error .usage

/-- The level that a setting asks for, if it names one. -/
def levelOf : Setting → Except Ending (Option Level)
  | .text t =>
    match Level.ofName? t with
    | some l => .ok (some l)
    | none => .error .usage
  | .void => .ok none
  | .absent => .ok (some .warning)

/-- Reads the options in front of the tool, and the tool. -/
def readTop (host : Host) (level : Option Level) (left : Bool) :
    List (String × Word TopOption) → Except Ending Request
  | [] => if left then .error .usage else .ok ⟨level, none⟩
  | (name, .plain _) :: rest =>
    match readTool host name (rest.map Prod.fst) with
    | .error e => .error e
    | .ok (tool, left') => if left || left' then .error .usage else .ok ⟨level, some tool⟩
  | (_, .marker) :: _ => .error .usage
  | (_, .unknown) :: rest => readTop host level true rest
  | (_, .known .help attached) :: _ =>
    if attached.fitsFlag ['h', 'v'] then .error (.help .top) else .error .usage
  | (_, .known .version attached) :: _ =>
    if attached.fitsFlag ['h', 'v'] then .error .version else .error .usage
  | (_, .known .logLevel attached) :: rest =>
    match attached with
    | .value text =>
      match levelOf (.ofAttached host text) with
      | .ok l => readTop host l left rest
      | .error e => .error e
    | .letters _ => .error .usage
    | .nothing =>
      match rest with
      | (_, .plain text) :: rest' =>
        match levelOf (.text text) with
        | .ok l => readTop host l left rest'
        | .error e => .error e
      | _ => .error .usage

/-- What the arguments ask for. -/
def Request.parse (host : Host) (args : List String) : Except Ending Request :=
  match classifyAll topSpellings args with
  | none => .error .usage
  | some words => readTop host (some .warning) false words

end Patricia.Cli
