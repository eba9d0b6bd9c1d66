import Patricia.Hex.Basic

/-
  What can go wrong, and how it is told.

  A `Fault` is a cause with the data that its message shows. Faults met while a proof is checked
  belong to a `Kind`; kinds form a tree, so that a caller can tell input that is no node
  (`nodeDecoding`) from a sound proof of something else (`invalidProof`) and from a proof that
  goes on where no tree can (`internal`). A fault without a kind is about the form of the data
  handed in (its digits, its size, the range of a byte), not about a proof.
-/

namespace Patricia

/-- The families of faults met while a proof is checked. -/
inductive Kind
  | trieProof
  | nodeDecoding
  | malformedEncoding
  | unknownShape
  | invalidHashLength
  | invalidProof
  | hashMismatch
  | keyMismatch
  | valueMismatch
  | missingProof
  | internal
deriving DecidableEq, Repr

namespace Kind

/-- Every kind, each once. -/
def all : List Kind :=
  [trieProof, nodeDecoding, malformedEncoding, unknownShape, invalidHashLength, invalidProof,
    hashMismatch, keyMismatch, valueMismatch, missingProof, internal]

/-- The name under which a kind is reported. -/
def name : Kind → String
  | trieProof => "TrieProofException"
  | nodeDecoding => "NodeDecodingError"
  | malformedEncoding => "MalformedEncoding"
  | unknownShape => "UnknownShape"
  | invalidHashLength => "InvalidHashLength"
  | invalidProof => "InvalidProof"
  | hashMismatch => "HashMismatch"
  | keyMismatch => "KeyMismatch"
  | valueMismatch => "ValueMismatch"
  | missingProof => "MissingProof"
  | internal => "InternalError"

/-- The kind that a kind is a case of; only the root of the tree has none. -/
def parent? : Kind → Option Kind
  | trieProof => none
  | nodeDecoding | invalidProof | internal => some trieProof
  | malformedEncoding | unknownShape | invalidHashLength => some nodeDecoding
  | hashMismatch | keyMismatch | valueMismatch | missingProof => some invalidProof

/-- The kind with a given name. -/
def ofName? (text : String) : Option Kind := all.find? (fun k => k.name == text)

end Kind

/-- A position in a node where a byte string has to stand. -/
inductive Place
  | path
  | second
  | slot (index : Nat)
deriving DecidableEq, Repr

/-- How a place is named in a message. -/
def Place.description : Place → String
  | path => "node path"
  | second => "second item"
  | slot i => "branch slot " ++ toString i

/-- The cause of a failure. -/
inductive Fault
  /-- A character that is no digit where one has to stand, or the text ends there. -/
  | hexDigit (position : Nat)
  /-- A digest was asked for and the bytes are not 32. -/
  | digestSize (found : Nat)
  /-- Two values that do not pack into one byte. -/
  | byteRange
  | notRlp
  | rlpString
  | nestedList (place : Place)
  | emptyPath
  | pathFlag (flag : Nat)
  | pathPadding
  | itemCount (found : Nat)
  | referenceSize (found : Nat)
  /-- An entry hashes to something else than its parent, or the root, refers to. -/
  | entryDigest (found expected : Digest)
  /-- A branch refers to no node with the digest of the next entry. -/
  | noSuchChild (branch next : Digest)
  | leafKey (found claimed : Bytes)
  | leafValue (found claimed : Bytes)
  | emptyTrieValue (claimed : Bytes)
  | proofMissing (root : Digest)
  /-- Entries are left over behind a leaf. -/
  | pastLeaf (node : Digest)
deriving DecidableEq

namespace Fault

/-- The family of a fault; none where the form of the data is at fault. -/
def kind? : Fault → Option Kind
  | hexDigit _ | digestSize _ | byteRange => none
  | notRlp | rlpString | nestedList _ | emptyPath | pathFlag _ | pathPadding =>
    some .malformedEncoding
  | itemCount _ => some .unknownShape
  | referenceSize _ => some .invalidHashLength
  | entryDigest _ _ | noSuchChild _ _ => some .hashMismatch
  | leafKey _ _ => some .keyMismatch
  | leafValue _ _ | emptyTrieValue _ => some .valueMismatch
  | proofMissing _ => some .missingProof
  | pastLeaf _ => some .internal

/-- The text of a fault. -/
def message : Fault → String
  | hexDigit n => "non-hexadecimal number found in fromhex() arg at position " ++ toString n
  | digestSize n => "expected 32 bytes but got " ++ toString n
  | byteRange => "byte must be in range(0, 256)"
  | notRlp => "node is not valid RLP"
  | rlpString => "node is an RLP string, expected a list"
  | nestedList place => place.description ++ " is a list, expected bytes"
  | emptyPath => "empty hex-prefix key"
  | pathFlag flag => "invalid hex-prefix flag nibble 0x" ++ String.ofList [Hex.digit flag]
  | pathPadding => "non-zero padding nibble in even-length key"
  | itemCount n => "node has " ++ toString n ++ " items, expected 2 or 17"
  | referenceSize n => "child reference is " ++ toString n ++ " bytes, expected 32"
  | entryDigest found expected =>
    "proof entry hashes to " ++ Hex.marked found.bytes ++ ", expected "
      ++ Hex.marked expected.bytes
  | noSuchChild branch next =>
    "branch " ++ Hex.marked branch.bytes ++ " has no child " ++ Hex.marked next.bytes
  | leafKey found claimed =>
    "leaf key " ++ Hex.marked found ++ " does not match " ++ Hex.marked claimed
  | leafValue found claimed =>
    "leaf value " ++ Hex.marked found ++ " does not match " ++ Hex.marked claimed
  | emptyTrieValue claimed => "value " ++ Hex.marked claimed ++ " claimed against the empty root"
  | proofMissing root =>
    "root " ++ Hex.marked root.bytes ++ " is not empty, a proof is required"
  | pastLeaf node => "proof continues past LeafNode " ++ Hex.marked node.bytes

/-- Name of the kind, if there is one, and message, as the tools and the log show a fault. -/
def report (f : Fault) : String :=
  match f.kind? with
  | some k => k.name ++ ": " ++ f.message
  | none => f.message

end Fault

/-- The digest with these bytes, or the fault of their number. -/
def Digest.ofBytes (b : Bytes) : Except Fault Digest :=
  match Digest.ofBytes? b with
  | none => .error (.digestSize b.length)
  | some d => .ok d

/-- An update that is never carried out. -/
inductive Refusal
  /-- The digest of a node is fixed when the node is made. -/
  | fixedDigest
  /-- Keys and decoded contents have no fields that can be assigned or removed. -/
  | frozen
deriving DecidableEq, Repr

/-- The text of a refusal. -/
def Refusal.message : Refusal → String
  | fixedDigest => "the hash of a node cannot change"
  | frozen => "Mutating frozen dataclasses is not allowed."

end Patricia
