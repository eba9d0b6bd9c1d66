import Patricia.Node.Render
import Patricia.Cli.Load

/-
  Running the tools.

  A tool turns its options and inputs into an exit code, a text and records for the log. What it
  does not report leaves it as it is (`Outcome.escaped`); nothing is said then of what was written
  before. A run reads the arguments, sets up the log, runs the tool that is asked for, and writes
  the records that reach the level; without a tool it shows the help text.
-/

namespace Patricia.Cli

/-- What no part of the command reports. -/
inductive Escape
  /-- A fault that a tool does not expect. -/
  | fault (f : Fault)
  /-- The option for the level was left void. -/
  | voidLevel
  /-- The option for the document was left void. -/
  | voidSource
  /-- The document is nested deeper than the host reads. -/
  | deepDocument
  /-- The stack has no room for the job. -/
  | noRoom
deriving DecidableEq

/-- The text of what is not reported. -/
def Escape.message : Escape → String
  | fault f => f.report
  | voidLevel => "the log level has no value"
  | voidSource => "the proof file has no name"
  | deepDocument => "the proof file is nested too deep"
  | noRoom => "the stack is exhausted"

/-- What a tool has to say. -/
structure Output where
  code : Nat
  out : String
  records : List Record
deriving DecidableEq

/-- How a claim is to be checked. -/
def VerifyOptions.keyMode (o : VerifyOptions) : KeyMode := ⟨!o.rawKeys, o.hashKey⟩

/-- The record at the start of a check. -/
def startRecord (c : Claim) : Record where
  level := .info
  speaker := .tool
  message :=
    "verifying " ++ toString c.proof.length ++ " proof entries against "
      ++ Hex.marked c.root.bytes

/-- Reports the check of a claim. -/
def reportClaim (o : VerifyOptions) (c : Claim) : Except Escape Output :=
  let t := c.check o.keyMode
  let records := startRecord c :: t.events.map Record.ofEvent
  match t.result with
  | .ok node =>
    .ok ⟨0, "valid\n" ++ (if o.showNodes then node.render ++ "\n" else ""), records⟩
  | .error f =>
    if f.kind?.isSome then .ok ⟨1, "invalid: " ++ f.report ++ "\n", records⟩ else .error (.fault f)

/-- The job of checking a claim as the options say. -/
def VerifyOptions.job (o : VerifyOptions) (c : Claim) : Job := .check c o.keyMode o.showNodes

/-- Checks the claim that was loaded, or reports why there is none. -/
def reportLoad (host : Host) (o : VerifyOptions) : Except LoadFault Claim → Except Escape Output
  | .error f =>
    if f.isTold then .ok ⟨2, "", [⟨.error, .tool, "cannot load proof: " ++ f.message⟩]⟩
    else .error .deepDocument
  | .ok c => if host.hasRoom (o.job c) then reportClaim o c else .error .noRoom

/-- Checks the claim that options ask to check. -/
def runVerify (host : Host) (inputs : Inputs) (o : VerifyOptions) : Except Escape Output :=
  match o.source with
  | .void => .error .voidSource
  | .absent => reportLoad host o (load host inputs o none)
  | .text source => reportLoad host o (load host inputs o (some source))

/-- The fault says that something is no node. -/
def isDecodingFault (f : Fault) : Bool :=
  (f.kind?.bind Kind.parent?) == some .nodeDecoding

/-- Prints the content of a node. -/
def runDecode (text : String) : Except Escape Output :=
  match Hex.parse text with
  | .error f => .ok ⟨2, "", [⟨.error, .tool, "node is not valid hex: " ++ f.message⟩]⟩
  | .ok raw =>
    match Content.decodeNodes raw true with
    | .ok c => .ok ⟨0, Node.renderContent (some c) ++ "\n", []⟩
    | .error f =>
      if isDecodingFault f then .ok ⟨1, "error: " ++ f.report ++ "\n", []⟩ else .error (.fault f)

/-- Runs a tool, or shows the help text if none is named. -/
def runTool (host : Host) (inputs : Inputs) : Option Tool → Except Escape Output
  | some (.verify o) => runVerify host inputs o
  | some (.decode text) =>
    if host.hasRoom (.decode text) then runDecode text else .error .noRoom
  | none => .ok ⟨0, Topic.text .top, []⟩

/-- How a run ends. -/
inductive Outcome
  /-- Reading the arguments ended it. -/
  | stopped (code : Nat) (out : String)
  /-- The tool has ended; `err` are the lines of its log. -/
  | finished (code : Nat) (out : String) (err : List String)
  /-- Something that no part of the command reports. -/
  | escaped (cause : Escape)
deriving DecidableEq

/-- Carries out a request; the log is set up for it. Without a level this ends at the first sink,
when its handler is there. -/
def execute (host : Host) (log : Logging) (inputs : Inputs) (r : Request) : Logging × Outcome :=
  match r.level with
  | none => (log.attachTool, .escaped .voidLevel)
  | some level =>
    let log' := log.setUp level
    match runTool host inputs r.tool with
    | .error e => (log', .escaped e)
    | .ok o => (log', .finished o.code o.out (log'.lines o.records))

/-- One run of the command. -/
def run (host : Host) (log : Logging) (inputs : Inputs) (args : List String) :
    Logging × Outcome :=
  match Request.parse host args with
  | .error e => (log, .stopped e.code e.out)
  | .ok r => execute host log inputs r

/-- Runs one after the other, over the same log. -/
def runAll (host : Host) (log : Logging) : List (Inputs × List String) → List Outcome
  | [] => []
  | (inputs, args) :: rest =>
    let r := run host log inputs args
    r.2 :: runAll host r.1 rest

end Patricia.Cli
