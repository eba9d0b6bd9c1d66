import Patricia.Node.Verify
import Patricia.Store.Basic

/-
  Checking a proof against a node of a store.

  The rules are those for nodes as values (`Node.verify`); what is learned is written into the
  store at once, so that a node with two names changes under both, and a slot visited later sees
  what an earlier one has learned. Nothing is assumed about the store: contents may be shared,
  disagree with the digest of their node, or lead back to it. Each step down uses up an entry.
-/

namespace Patricia.Store

/-- Gives a node the content of an entry, unless it has one already. -/
def learn (s : Store) (id : NodeId) (c : Content Digest) : Store :=
  match s.contentOf id with
  | some _ => s
  | none =>
    let added := s.addContent (s.cell id).hashesKeys c
    added.1.setContent id (some added.2)

/-- Some slot holds a node with the digest `next`. -/
def refersTo (s : Store) (next : Digest) (slots : List (Option NodeId)) : Bool :=
  slots.any (fun slot => slot.any (fun id => (s.cell id).digest == next))

/-- Visits the slots that hold a node with the digest `next`, in order, until one fails. The
first slot has index `i`. -/
def visitSlots (branch next : Digest) (visit : NodeId → Store → Visit Store) :
    Nat → List (Option NodeId) → Store → Visit Store
  | _, [], s => .done s
  | i, none :: rest, s => visitSlots branch next visit (i + 1) rest s
  | i, some id :: rest, s =>
    if (s.cell id).digest = next then
      ((visit id s).told (.descendBranch branch i)).andThen (fun t => t)
        (visitSlots branch next visit (i + 1) rest)
    else visitSlots branch next visit (i + 1) rest s

/-- Goes on below a node, whose content is known, with the rest of the proof, which starts with an
entry of digest `next`; `visit` checks that rest against a child. -/
def descend (next : Digest) (visit : NodeId → Store → Visit Store) (id : NodeId) (s : Store) :
    Visit Store :=
  let node := (s.cell id).digest
  match s.contentOf id with
  | some (.extension _ child) => (visit child s).told (.descendExtension node)
  | some (.branch slots) =>
    if s.refersTo next slots then visitSlots node next visit 0 slots s
    else .fail s (.noSuchChild node next)
  | _ => .fail s (.pastLeaf node)

/-- Checks that a proof shows `key` to have `value` below a node. -/
def verify (key value : Bytes) : List Bytes → NodeId → Store → Visit Store
  | [], id, s => ⟨s, [], emptyProofVerdict (s.cell id).digest value⟩
  | entry :: rest, id, s =>
    match openEntry (s.cell id).digest entry with
    | .error f => .fail s f
    | .ok c =>
      match c.agree key value with
      | .error f => .fail (s.learn id c) f
      | .ok () =>
        match rest.head? with
        | none => .done (s.learn id c)
        | some next => descend (keccak256 next) (verify key value rest) id (s.learn id c)

end Patricia.Store
