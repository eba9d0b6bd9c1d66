import Patricia.Rlp.Decode
import Patricia.Path.Compact
import Patricia.Node.Basic

/-
  Decoding an entry of a proof.

  An entry is a list of two items (a compact path with a value or a reference) or of seventeen
  (the slots of a branch). A reference is a digest; a child that is stored inline, as a list, is
  refused. Checks run from the left, and the first one that fails names the fault.
-/

namespace Patricia.Content

/-- The byte string at a place, where a list is a fault. -/
def expectBytes (place : Place) : Rlp.Item → Except Fault Bytes
  | .bytes b => .ok b
  | .list _ => .error (.nestedList place)

/-- The digest that a reference consists of. -/
def reference (b : Bytes) : Except Fault Digest :=
  match Digest.ofBytes? b with
  | none => .error (.referenceSize b.length)
  | some d => .ok d

/-- A slot is empty or holds a reference. -/
def slot (index : Nat) (item : Rlp.Item) : Except Fault (Option Digest) :=
  match expectBytes (.slot index) item with
  | .error f => .error f
  | .ok [] => .ok none
  | .ok b => (reference b).map some

/-- The slots of a branch, of which the first has the given index. -/
def slots : Nat → List Rlp.Item → Except Fault (List (Option Digest))
  | _, [] => .ok []
  | i, item :: rest =>
    match slot i item with
    | .error f => .error f
    | .ok s => (slots (i + 1) rest).map (s :: ·)

/-- A leaf or an extension, as the flag of its path tells. -/
def ofPair (first second : Rlp.Item) : Except Fault (Content Digest) :=
  match expectBytes .path first with
  | .error f => .error f
  | .ok compact =>
    match Key.ofCompact compact with
    | .error f => .error f
    | .ok key =>
      match expectBytes .second second with
      | .error f => .error f
      | .ok b =>
        match key.bare with
        | .error f => .error f
        | .ok path =>
          if key.isLeaf then .ok (leaf path b)
          else (reference b).map (extension path)

/-- The content that a list of items stands for. -/
def ofItems (items : List Rlp.Item) : Except Fault (Content Digest) :=
  match items with
  | [first, second] => ofPair first second
  | _ => if items.length = slotCount then (slots 0 items).map branch
    else .error (.itemCount items.length)

/-- The content of which `raw` is the encoding, with children by their digests. -/
def decode (raw : Bytes) : Except Fault (Content Digest) :=
  match Rlp.decode raw with
  | none => .error .notRlp
  | some (.bytes _) => .error .rlpString
  | some (.list items) => ofItems items

/-- The content with nothing known of its children. -/
def fresh (hashesKeys : Bool) (c : Content Digest) : Content Node := c.map (Node.unknown hashesKeys)

/-- The content of which `raw` is the encoding, over children of the given mode. -/
def decodeNodes (raw : Bytes) (hashesKeys : Bool) : Except Fault (Content Node) :=
  (decode raw).map (fresh hashesKeys)

end Patricia.Content
