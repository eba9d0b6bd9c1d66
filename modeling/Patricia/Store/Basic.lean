import Patricia.Node.Decode

/-
  Tries as shared objects.

  A store numbers nodes and contents. A node keeps its digest for ever; its mode can be changed,
  and so can the number of its content, which is absent as long as nothing is known. A content is
  never changed once it is there. So a node that is reached in two ways is one node, and what is
  learned of it shows wherever it is reached from; a content that was looked at before stays what
  it was.

  Numbers that a store does not hold read as a node of which nothing is known. `Store.tree` reads
  a node with all that is below it as a value; in a store without cycles no path is longer than
  the number of nodes, which bounds the depth.
-/

namespace Patricia

/-- The number of a node in a store. -/
abbrev NodeId := Nat

/-- The number of a content in a store. -/
abbrev ContentId := Nat

/-- A node of a store. -/
structure Cell where
  digest : Digest
  hashesKeys : Bool
  content : Option ContentId
deriving DecidableEq

instance : Inhabited Cell := ⟨⟨emptyTrieRoot, true, none⟩⟩

/-- Nodes and contents by number. -/
structure Store where
  cells : Array Cell
  contents : Array (Content NodeId)

namespace Content

variable {α : Type}

/-- Replaces the children in the slots by consecutive numbers. -/
def numberSlots : Nat → List (Option α) → List (Option NodeId)
  | _, [] => []
  | i, none :: rest => none :: numberSlots i rest
  | i, some _ :: rest => some i :: numberSlots (i + 1) rest

/-- Replaces the children by consecutive numbers. -/
def number (start : Nat) : Content α → Content NodeId
  | leaf key value => leaf key value
  | extension path _ => extension path start
  | branch slots => branch (numberSlots start slots)

end Content

namespace Store

/-- A store without nodes. -/
def empty : Store := ⟨#[], #[]⟩

/-- The node with a number. -/
def cell (s : Store) (id : NodeId) : Cell := s.cells.getD id default

/-- The content with a number, where there is one. -/
def content? (s : Store) (c : Option ContentId) : Option (Content NodeId) :=
  c.bind (fun i => s.contents[i]?)

/-- What is known of a node. -/
def contentOf (s : Store) (id : NodeId) : Option (Content NodeId) := s.content? (s.cell id).content

/-! ## Changes -/

/-- A new node of which only the digest is known. -/
def addNode (s : Store) (hashesKeys : Bool) (d : Digest) : Store × NodeId :=
  (⟨s.cells.push ⟨d, hashesKeys, none⟩, s.contents⟩, s.cells.size)

/-- A new content over new children. -/
def addContent (s : Store) (hashesKeys : Bool) (c : Content Digest) : Store × ContentId :=
  (⟨s.cells ++ (c.children.map (fun d => Cell.mk d hashesKeys none)).toArray,
    s.contents.push (c.number s.cells.size)⟩, s.contents.size)

/-- Changes a node; its digest stays. -/
def setContent (s : Store) (id : NodeId) (c : Option ContentId) : Store :=
  ⟨s.cells.setIfInBounds id ⟨(s.cell id).digest, (s.cell id).hashesKeys, c⟩, s.contents⟩

/-- Changes the mode of one node, not of those below it. -/
def setHashesKeys (s : Store) (id : NodeId) (hashesKeys : Bool) : Store :=
  ⟨s.cells.setIfInBounds id ⟨(s.cell id).digest, hashesKeys, (s.cell id).content⟩, s.contents⟩

/-! ## Trees -/

/-- A node as a value, down to a depth. -/
def treeTo (s : Store) : Nat → NodeId → Node
  | 0, id => .mk (s.cell id).digest (s.cell id).hashesKeys none
  | depth + 1, id =>
    .mk (s.cell id).digest (s.cell id).hashesKeys
      ((s.contentOf id).map (Content.map (s.treeTo depth)))

/-- A node as a value, with all that is known below it. -/
def tree (s : Store) (id : NodeId) : Node := s.treeTo s.cells.size id

/-- A content as a value, with all that is known below it. -/
def contentTree (s : Store) (c : Option ContentId) : Option (Content Node) :=
  (s.content? c).map (Content.map s.tree)

end Store

end Patricia
