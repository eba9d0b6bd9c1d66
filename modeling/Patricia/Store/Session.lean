import Patricia.Node.Render
import Patricia.Store.Verify

/-
  Sessions: a store worked on through named registers.

  A register holds a node or a content (or the absence of one) by number. A step looks registers
  up, changes the store or one register, and replies; a step that fails leaves the registers as
  they are. Attempts to change what is fixed are steps too: the digest of a node, and the fields
  of a content.
-/

namespace Patricia

/-- What a register holds. -/
inductive Held
  | node (id : NodeId)
  | content (c : Option ContentId)
deriving DecidableEq

/-- A node, or what is known of one, as a value. -/
inductive View
  | node (n : Node)
  | content (c : Option (Content Node))
deriving DecidableEq

/-- The text form of a view. -/
def View.render : View → String
  | node n => n.render
  | content c => Node.renderContent c

/-- One step down from a content. -/
inductive Hop
  | child
  | slot (index : Nat)
deriving DecidableEq

/-- A step of a session. `target` is the register that is set, `source` the one that is read. -/
inductive Step
  | new (target : String) (digest : Bytes) (hashesKeys : Bool)
  | decode (target : String) (raw : Bytes) (hashesKeys : Bool)
  | child (target source : String) (path : List Hop)
  | content (target source : String)
  | verify (node : String) (key value : Bytes) (proof : List Bytes)
  /-- Gives a node the content held by a register, or none. -/
  | setContent (node : String) (source : Option String)
  | setDigest (node : String) (digest : Bytes)
  | setHashesKeys (node : String) (hashesKeys : Bool)
  | setField (content field : String)
  | removeField (content field : String)
  | equal (a b : String)
  | storedKey (node : String) (key : Bytes)
  | view (source : String)
  | render (source : String)
deriving DecidableEq

/-- The reply to a step. -/
inductive Reply
  | shown (v : View)
  /-- Verdict and events of a check, and the node afterwards. -/
  | verified (verdict : Except Fault Unit) (events : List Event) (state : Node)
  /-- A change that is never made, and what there is instead. -/
  | refused (why : Refusal) (state : View)
  | failed (f : Fault)
  | truth (b : Bool)
  | bytes (b : Bytes)
  | text (t : String)
  /-- The step names a register, or a child, that there is not. -/
  | misuse

/-- A store and its registers, the latest first. -/
structure Session where
  store : Store
  registers : List (String × Held)

namespace Session

/-- Neither nodes nor registers. -/
def empty : Session := ⟨Store.empty, []⟩

/-- What a register holds. -/
def held? (s : Session) (name : String) : Option Held := s.registers.lookup name

/-- The node that a register holds. -/
def node? (s : Session) (name : String) : Option NodeId :=
  match s.held? name with
  | some (.node id) => some id
  | _ => none

/-- The content that a register holds. -/
def content? (s : Session) (name : String) : Option (Option ContentId) :=
  match s.held? name with
  | some (.content c) => some c
  | _ => none

/-- Sets a register. -/
def set (s : Session) (name : String) (h : Held) : Session :=
  ⟨s.store, (name, h) :: s.registers⟩

/-- What is held, as a value. -/
def viewOf (s : Session) : Held → View
  | .node id => .node (s.store.tree id)
  | .content c => .content (s.store.contentTree c)

/-- The content of what is held: of a node, the content it has now. -/
def contentHeld (s : Session) : Held → Option ContentId
  | .node id => (s.store.cell id).content
  | .content c => c

/-- The child that one hop leads to. -/
def hop (s : Session) (h : Held) (way : Hop) : Option Held :=
  match s.store.content? (s.contentHeld h), way with
  | some (.extension _ child), .child => some (.node child)
  | some (.branch slots), .slot i => (slots[i]?.bind id).map Held.node
  | _, _ => none

/-- What a path of hops leads to. -/
def follow (s : Session) : Held → List Hop → Option Held
  | h, [] => some h
  | h, way :: rest =>
    match s.hop h way with
    | none => none
    | some h' => s.follow h' rest

/-- Sets a register and shows it. -/
def keep (s : Session) (name : String) (h : Held) : Session × Reply :=
  (s.set name h, .shown (s.viewOf h))

/-- Refuses to change a field of a content. -/
def refuseField (s : Session) (name : String) : Reply :=
  match s.content? name with
  | some c =>
    match s.store.content? c with
    | some _ => .refused .frozen (s.viewOf (.content c))
    | none => .misuse
  | none => .misuse

/-- Carries out a step on a node that is there. -/
def onNode (s : Session) (name : String) (f : NodeId → Session × Reply) : Session × Reply :=
  match s.node? name with
  | some id => f id
  | none => (s, .misuse)

/-- Carries out a step. -/
def step (s : Session) : Step → Session × Reply
  | .new target digest hashesKeys =>
    match Digest.ofBytes digest with
    | .error f => (s, .failed f)
    | .ok d =>
      let added := s.store.addNode hashesKeys d
      keep ⟨added.1, s.registers⟩ target (.node added.2)
  | .decode target raw hashesKeys =>
    match Content.decode raw with
    | .error f => (s, .failed f)
    | .ok c =>
      let added := s.store.addContent hashesKeys c
      keep ⟨added.1, s.registers⟩ target (.content (some added.2))
  | .child target source path =>
    match (s.held? source).bind (fun h => s.follow h path) with
    | some (.node id) => s.keep target (.node id)
    | _ => (s, .misuse)
  | .content target source =>
    s.onNode source (fun id => s.keep target (.content (s.store.cell id).content))
  | .verify node key value proof =>
    s.onNode node (fun id =>
      let v := s.store.verify key value proof id
      (⟨v.after, s.registers⟩, .verified v.verdict v.events (v.after.tree id)))
  | .setContent node source =>
    s.onNode node (fun id =>
      match source.elim (some none) s.content? with
      | some c =>
        let t : Session := ⟨s.store.setContent id c, s.registers⟩
        (t, .shown (t.viewOf (.node id)))
      | none => (s, .misuse))
  | .setDigest node _ =>
    s.onNode node (fun id => (s, .refused .fixedDigest (s.viewOf (.node id))))
  | .setHashesKeys node hashesKeys =>
    s.onNode node (fun id =>
      let t : Session := ⟨s.store.setHashesKeys id hashesKeys, s.registers⟩
      (t, .shown (t.viewOf (.node id))))
  | .setField content _ => (s, s.refuseField content)
  | .removeField content _ => (s, s.refuseField content)
  | .equal a b =>
    match s.held? a, s.held? b with
    | some x, some y => (s, .truth (s.viewOf x == s.viewOf y))
    | _, _ => (s, .misuse)
  | .storedKey node key =>
    s.onNode node (fun id => (s, .bytes (trieKey (s.store.cell id).hashesKeys key)))
  | .view source =>
    match s.held? source with
    | some h => (s, .shown (s.viewOf h))
    | none => (s, .misuse)
  | .render source =>
    match s.held? source with
    | some h => (s, .text (s.viewOf h).render)
    | none => (s, .misuse)

/-- Carries out steps one after the other. -/
def run (s : Session) : List Step → Session × List Reply
  | [] => (s, [])
  | a :: rest =>
    let t := s.step a
    let u := t.1.run rest
    (u.1, t.2 :: u.2)

end Session

end Patricia
