import Patricia.Node.Visit

/-
  The log of the command line.

  Records go to one of two sinks: that of the tool, and that of the library, which takes what is
  told while nodes and proofs are checked. Each run sets the level of both sinks; handlers, which
  write the lines, are attached to a sink that has none and stay. A record is written once by
  every handler of its sink if it reaches the level.
-/

namespace Patricia.Cli

/-- How grave a record is. -/
inductive Level
  | debug
  | info
  | warning
  | error
deriving DecidableEq, Repr

namespace Level

/-- Every level, the least grave first. -/
def all : List Level := [debug, info, warning, error]

/-- The position of a level. -/
def rank : Level → Nat
  | debug => 0
  | info => 1
  | warning => 2
  | error => 3

/-- The name of a level in options and lines. -/
def name : Level → String
  | debug => "DEBUG"
  | info => "INFO"
  | warning => "WARNING"
  | error => "ERROR"

/-- The level with a given name. -/
def ofName? (text : String) : Option Level := all.find? (fun l => l.name == text)

end Level

/-- Who speaks. -/
inductive Speaker
  | tool
  | node
  | proof
deriving DecidableEq, Repr

/-- The name of a speaker in lines. -/
def Speaker.name : Speaker → String
  | tool => "trie-proof"
  | node => "ethereum_trie_proof.node"
  | proof => "ethereum_trie_proof.proof"

/-- One entry of the log. -/
structure Record where
  level : Level
  speaker : Speaker
  message : String
deriving DecidableEq

/-- The line of a record, with its end. -/
def Record.line (r : Record) : String :=
  r.level.name ++ ":" ++ r.speaker.name ++ ":" ++ r.message ++ "\n"

/-- The record of what is told during a check. -/
def Record.ofEvent (e : Event) : Record where
  level := .debug
  speaker :=
    match e with
    | .descendExtension _ | .descendBranch _ _ => .node
    | .rejected _ => .proof
  message := e.message

/-- Where records go: the least level that is written, and the number of handlers. -/
structure Sink where
  level : Level
  handlers : Nat
deriving DecidableEq

namespace Sink

/-- A sink that was never set up. -/
def unset : Sink := ⟨.warning, 0⟩

/-- Attaches a handler if there is none. -/
def attach (s : Sink) : Sink := ⟨s.level, if s.handlers = 0 then 1 else s.handlers⟩

/-- Attaches a handler if there is none, and sets the level. -/
def setUp (s : Sink) (level : Level) : Sink := ⟨level, s.attach.handlers⟩

theorem attach_handlers {s : Sink} (h : s.handlers ≤ 1) : s.attach.handlers = 1 := by
  simp only [attach]
  split <;> omega

/-- The lines written for a record. -/
def lines (s : Sink) (r : Record) : List String :=
  if s.level.rank ≤ r.level.rank then List.replicate s.handlers r.line else []

end Sink

/-- The sinks of the tool and of the library. -/
structure Logging where
  tool : Sink
  library : Sink
deriving DecidableEq

namespace Logging

/-- Nothing is set up. -/
def initial : Logging := ⟨.unset, .unset⟩

/-- Attaches a handler to the sink of the tool. -/
def attachTool (l : Logging) : Logging := ⟨l.tool.attach, l.library⟩

/-- Sets up both sinks for a run. -/
def setUp (l : Logging) (level : Level) : Logging := ⟨l.tool.setUp level, l.library.setUp level⟩

/-- The sink of a speaker. -/
def sink (l : Logging) : Speaker → Sink
  | .tool => l.tool
  | .node | .proof => l.library

/-- The lines written for records, in order. -/
def lines (l : Logging) (records : List Record) : List String :=
  records.flatMap (fun r => (l.sink r.speaker).lines r)

end Logging

end Patricia.Cli
