import Patricia.Keccak.Sponge
import Patricia.Node.Content

/-
  Partially known tries.

  A node is a digest together with what has been learned about the content behind it. At first
  nothing is known; a content, once learned, refers to its children by nodes of their own. The
  mode `hashesKeys` says that the trie stores the keccak-256 digests of keys instead of the keys;
  it is carried by every node and matters only for a key as a caller knows it (`trieKey`).
-/

namespace Patricia

/-- The key under which a trie stores what a caller knows under `raw`. -/
def trieKey (hashesKeys : Bool) (raw : Bytes) : Bytes :=
  if hashesKeys then (keccak256 raw).bytes else raw

/-- A digest and what is known of the content behind it. -/
inductive Node
  | mk (digest : Digest) (hashesKeys : Bool) (content : Option (Content Node))

namespace Node

/-- The digest by which a node is referred to. -/
def digest : Node → Digest
  | mk d _ _ => d

/-- The trie stores digests of keys. -/
def hashesKeys : Node → Bool
  | mk _ k _ => k

/-- What is known of the content. -/
def content : Node → Option (Content Node)
  | mk _ _ c => c

/-- A node of which only the digest is known. -/
def unknown (hashesKeys : Bool) (d : Digest) : Node := mk d hashesKeys none

/-- The same node with another content. -/
def withContent (n : Node) (c : Option (Content Node)) : Node := mk n.digest n.hashesKeys c

@[simp] theorem digest_mk (d : Digest) (k : Bool) (c : Option (Content Node)) :
    (mk d k c).digest = d := rfl

@[simp] theorem hashesKeys_mk (d : Digest) (k : Bool) (c : Option (Content Node)) :
    (mk d k c).hashesKeys = k := rfl

@[simp] theorem content_mk (d : Digest) (k : Bool) (c : Option (Content Node)) :
    (mk d k c).content = c := rfl

end Node

/-- The digest of the encoded empty byte string, which is the root of the trie without entries. -/
def emptyTrieRoot : Digest where
  bytes :=
    [0x56, 0xe8, 0x1f, 0x17, 0x1b, 0xcc, 0x55, 0xa6, 0xff, 0x83, 0x45, 0xe6, 0x92, 0xc0, 0xf8, 0x6e,
      0x5b, 0x48, 0xe0, 0x1b, 0x99, 0x6c, 0xad, 0xc0, 0x01, 0x62, 0x2f, 0xb5, 0xe3, 0x63, 0xb4,
      0x21]
  size_eq := rfl

/-- The value that the trie without entries gives to every key. -/
def emptyValue : Bytes := [0]

/-! ## Equality -/

mutual
/-- Compares two nodes, what is known of them included. -/
def Node.same : Node → Node → Bool
  | .mk d k c, .mk d' k' c' => decide (d = d') && (k == k' && Node.sameContent c c')

/-- Compares what is known of two nodes. -/
def Node.sameContent : Option (Content Node) → Option (Content Node) → Bool
  | none, none => true
  | some (.leaf key value), some (.leaf key' value') => decide (key = key' ∧ value = value')
  | some (.extension path child), some (.extension path' child') =>
    decide (path = path') && Node.same child child'
  | some (.branch slots), some (.branch slots') => Node.sameSlots slots slots'
  | _, _ => false

/-- Compares the slots of two branches. -/
def Node.sameSlots : List (Option Node) → List (Option Node) → Bool
  | [], [] => true
  | none :: rest, none :: rest' => Node.sameSlots rest rest'
  | some n :: rest, some n' :: rest' => Node.same n n' && Node.sameSlots rest rest'
  | _, _ => false
end

mutual
theorem Node.same_iff : ∀ a b : Node, Node.same a b = true ↔ a = b
  | .mk d k c, .mk d' k' c' => by
    simp [Node.same, Node.sameContent_iff c c']

theorem Node.sameContent_iff :
    ∀ a b : Option (Content Node), Node.sameContent a b = true ↔ a = b
  | none, none => by simp [Node.sameContent]
  | none, some _ => by simp [Node.sameContent]
  | some (.leaf _ _), none => by simp [Node.sameContent]
  | some (.leaf _ _), some (.leaf _ _) => by simp [Node.sameContent]
  | some (.leaf _ _), some (.extension _ _) => by simp [Node.sameContent]
  | some (.leaf _ _), some (.branch _) => by simp [Node.sameContent]
  | some (.extension _ _), none => by simp [Node.sameContent]
  | some (.extension _ _), some (.leaf _ _) => by simp [Node.sameContent]
  | some (.extension _ child), some (.extension _ child') => by
    simp [Node.sameContent, Node.same_iff child child']
  | some (.extension _ _), some (.branch _) => by simp [Node.sameContent]
  | some (.branch _), none => by simp [Node.sameContent]
  | some (.branch _), some (.leaf _ _) => by simp [Node.sameContent]
  | some (.branch _), some (.extension _ _) => by simp [Node.sameContent]
  | some (.branch slots), some (.branch slots') => by
    simp [Node.sameContent, Node.sameSlots_iff slots slots']

theorem Node.sameSlots_iff : ∀ a b : List (Option Node), Node.sameSlots a b = true ↔ a = b
  | [], [] => by simp [Node.sameSlots]
  | [], _ :: _ => by simp [Node.sameSlots]
  | _ :: _, [] => by simp [Node.sameSlots]
  | none :: rest, none :: rest' => by simp [Node.sameSlots, Node.sameSlots_iff rest rest']
  | none :: _, some _ :: _ => by simp [Node.sameSlots]
  | some _ :: _, none :: _ => by simp [Node.sameSlots]
  | some n :: rest, some n' :: rest' => by
    simp [Node.sameSlots, Node.same_iff n n', Node.sameSlots_iff rest rest']
end

instance : DecidableEq Node := fun a b => decidable_of_iff _ (Node.same_iff a b)

end Patricia
