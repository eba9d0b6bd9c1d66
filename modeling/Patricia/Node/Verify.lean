import Patricia.Node.Decode
import Patricia.Node.Visit

/-
  Checking a proof against a node.

  Each entry must hash to the node that it is checked against. Its content is remembered if
  nothing was known yet; a leaf is compared with the claim at once; then the rest of the proof is
  checked against the children that the next entry hashes to, every slot of a branch that carries
  that digest, lowest first. The descent follows what is remembered, which need not be what was
  just decoded.

  The recursion is on the proof: a node may be visited again, but never with as many entries.
-/

namespace Patricia

/-- The verdict on a claim that comes without any entry: only the empty trie needs none. -/
def emptyProofVerdict (root : Digest) (value : Bytes) : Except Fault Unit :=
  if root ≠ emptyTrieRoot then .error (.proofMissing root)
  else if value ≠ emptyValue then .error (.emptyTrieValue value)
  else .ok ()

/-- The content of an entry that has to hash to `expected`. -/
def openEntry (expected : Digest) (entry : Bytes) : Except Fault (Content Digest) :=
  if keccak256 entry ≠ expected then .error (.entryDigest (keccak256 entry) expected)
  else Content.decode entry

/-- Compares a leaf with the claim; any other content agrees with every claim. -/
def Content.agree {α : Type} (key value : Bytes) : Content α → Except Fault Unit
  | .leaf k v =>
    if k ≠ key then .error (.leafKey k key)
    else if v ≠ value then .error (.leafValue v value)
    else .ok ()
  | _ => .ok ()

namespace Node

/-- The node with the content of an entry, unless it has one already. -/
def learn (n : Node) (c : Content Digest) : Node :=
  match n.content with
  | some _ => n
  | none => n.withContent (some (c.fresh n.hashesKeys))

/-- Some slot holds a node with the digest `next`. -/
def refersTo (next : Digest) (slots : List (Option Node)) : Bool :=
  slots.any (fun s => s.any (fun n => n.digest == next))

/-- Visits the slots that hold a node with the digest `next`, in order, until one fails. The
first slot has index `i`. -/
def visitSlots (branch next : Digest) (visit : Node → Visit Node) :
    Nat → List (Option Node) → Visit (List (Option Node))
  | _, [] => .done []
  | i, none :: rest => (visitSlots branch next visit (i + 1) rest).map (none :: ·)
  | i, some n :: rest =>
    if n.digest = next then
      ((visit n).told (.descendBranch branch i)).andThen (fun n' => some n' :: rest)
        (fun n' => (visitSlots branch next visit (i + 1) rest).map (some n' :: ·))
    else (visitSlots branch next visit (i + 1) rest).map (some n :: ·)

/-- Goes on below a node, whose content is known, with the rest of the proof, which starts with an
entry of digest `next`; `visit` checks that rest against a child. -/
def descend (next : Digest) (visit : Node → Visit Node) (n : Node) : Visit Node :=
  match n.content with
  | some (.extension path child) =>
    ((visit child).told (.descendExtension n.digest)).map
      (fun c => n.withContent (some (.extension path c)))
  | some (.branch slots) =>
    if refersTo next slots then
      (visitSlots n.digest next visit 0 slots).map (fun s => n.withContent (some (.branch s)))
    else .fail n (.noSuchChild n.digest next)
  | _ => .fail n (.pastLeaf n.digest)

/-- Checks that a proof shows `key` to have `value` below a node. -/
def verify (key value : Bytes) : List Bytes → Node → Visit Node
  | [], n => ⟨n, [], emptyProofVerdict n.digest value⟩
  | entry :: rest, n =>
    match openEntry n.digest entry with
    | .error f => .fail n f
    | .ok c =>
      match c.agree key value with
      | .error f => .fail (n.learn c) f
      | .ok () =>
        match rest.head? with
        | none => .done (n.learn c)
        | some next => descend (keccak256 next) (verify key value rest) (n.learn c)

end Node

end Patricia
