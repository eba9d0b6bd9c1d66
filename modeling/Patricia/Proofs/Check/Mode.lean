import Mathlib.Data.List.Basic
import Patricia.Check
import Patricia.Proofs.Node.Decode
import Patricia.Proofs.Node.Places

/-
  The mode of keys, in two runs.

  `Node.inMode` gives every node of a tree one mode and changes nothing else. A check commutes with
  it (`Node.verify_inMode`): whatever is known of a tree, the mode has no part in what is told and
  how the check ends, and the tree that is left behind is the same but for the mode. So the mode
  cannot leak into a comparison at any depth; it is only handed on to the children.

  It has one other use, before a check: a key as the caller knows it is translated once
  (`Claim.soughtKey`). `mode_only_tags` says what follows for a claim: the modes of the trees are
  the only difference between two checks that translate no key, a translated key is checked as if
  its digest had been given, and where keys are stored as they are there is nothing to translate.
-/

namespace Patricia

mutual
/-- The same tree, with one mode for all its nodes. -/
def Node.inMode (hashesKeys : Bool) : Node → Node
  | .mk d _ c => .mk d hashesKeys (Node.contentInMode hashesKeys c)

/-- What is known of a node, with one mode for all nodes below. -/
def Node.contentInMode (hashesKeys : Bool) : Option (Content Node) → Option (Content Node)
  | none => none
  | some (.leaf key value) => some (.leaf key value)
  | some (.extension path child) => some (.extension path (Node.inMode hashesKeys child))
  | some (.branch slots) => some (.branch (Node.slotsInMode hashesKeys slots))

/-- The slots of a branch, with one mode for all nodes below. -/
def Node.slotsInMode (hashesKeys : Bool) : List (Option Node) → List (Option Node)
  | [] => []
  | none :: rest => none :: Node.slotsInMode hashesKeys rest
  | some n :: rest => some (Node.inMode hashesKeys n) :: Node.slotsInMode hashesKeys rest
end

namespace Node

variable (k : Bool)

/-! ## Trees -/

theorem slotsInMode_eq_map (slots : List (Option Node)) :
    slotsInMode k slots = slots.map (Option.map (inMode k)) := by
  induction slots with
  | nil => rfl
  | cons slot rest ih =>
      cases slot with
      | none => rw [slotsInMode, ih, List.map_cons, Option.map_none]
      | some n => rw [slotsInMode, ih, List.map_cons, Option.map_some]

theorem contentInMode_eq_map (c : Option (Content Node)) :
    contentInMode k c = c.map (Content.map (inMode k)) := by
  rcases c with _ | ⟨key, value⟩ | ⟨path, child⟩ | slots
  · rfl
  · rfl
  · rfl
  · rw [contentInMode, slotsInMode_eq_map]
    rfl

@[simp] theorem digest_inMode (n : Node) : (n.inMode k).digest = n.digest := by
  cases n
  rfl

@[simp] theorem hashesKeys_inMode (n : Node) : (n.inMode k).hashesKeys = k := by
  cases n
  rfl

theorem content_inMode (n : Node) :
    (n.inMode k).content = n.content.map (Content.map (inMode k)) := by
  cases n
  exact contentInMode_eq_map k _

theorem inMode_withContent (n : Node) (c : Option (Content Node)) :
    (n.withContent c).inMode k = (n.inMode k).withContent (c.map (Content.map (inMode k))) := by
  rw [← contentInMode_eq_map]
  cases n
  rfl

theorem map_inMode_fresh (j : Bool) (c : Content Digest) :
    (c.fresh j).map (inMode k) = c.fresh k :=
  Content.map_map (inMode k) (unknown j) c

/-- The nodes at the places of the tree are those of the given one, in the mode. -/
theorem at?_inMode (p : List Hop) (n : Node) :
    (n.inMode k).at? p = (n.at? p).map (inMode k) := by
  induction p generalizing n with
  | nil => rfl
  | cons way rest ih =>
      simp only [at?, content_inMode]
      cases n.content with
      | none => rfl
      | some c =>
          simp only [Option.map_some, Option.bind_some, Content.at?_map]
          cases c.at? way with
          | none => rfl
          | some child => exact ih child

/-- Every node of the tree has the mode. -/
theorem hashesKeys_of_at?_inMode {p : List Hop} {n m : Node} (h : (n.inMode k).at? p = some m) :
    m.hashesKeys = k := by
  rw [at?_inMode] at h
  obtain ⟨m', _, rfl⟩ := Option.map_eq_some_iff.mp h
  exact hashesKeys_inMode k m'

/-! ## Checks -/

theorem learn_inMode (n : Node) (c : Content Digest) :
    (n.inMode k).learn c = (n.learn c).inMode k := by
  unfold learn
  rw [content_inMode]
  cases n.content with
  | some known => rfl
  | none =>
      simp only [Option.map_none, inMode_withContent, Option.map_some, map_inMode_fresh,
        hashesKeys_inMode]

section Visits

variable {k} {next : Digest} {visit : Node → Visit Node}
  (hvisit : ∀ n, visit (n.inMode k) = (visit n).map (inMode k))
include hvisit

theorem visitSlots_inMode (branch : Digest) (i : Nat) (slots : List (Option Node)) :
    visitSlots branch next visit i (slots.map (Option.map (inMode k))) =
      (visitSlots branch next visit i slots).map (List.map (Option.map (inMode k))) := by
  induction slots generalizing i with
  | nil => rfl
  | cons slot rest ih =>
      have hrest := ih (i + 1)
      cases slot with
      | none =>
          simp only [List.map_cons, Option.map_none, visitSlots, hrest]
          rfl
      | some n =>
          simp only [List.map_cons, Option.map_some, visitSlots, digest_inMode, hvisit, hrest]
          by_cases hn : n.digest = next
          · rw [if_pos hn, if_pos hn]
            obtain ⟨after, events, verdict⟩ := visit n
            cases verdict <;> rfl
          · rw [if_neg hn, if_neg hn]
            rfl

end Visits

theorem refersTo_inMode (next : Digest) (slots : List (Option Node)) :
    refersTo next (slots.map (Option.map (inMode k))) = refersTo next slots := by
  have hany : ∀ slot : Option Node,
      (slot.map (inMode k)).any (fun n => n.digest == next) =
        slot.any (fun n => n.digest == next) := by
    intro slot
    cases slot with
    | none => rfl
    | some n => simp
  simp only [refersTo, List.any_map, Function.comp_def, hany]

theorem descend_inMode {k : Bool} (next : Digest) {visit : Node → Visit Node}
    (hvisit : ∀ n, visit (n.inMode k) = (visit n).map (inMode k)) (n : Node) :
    descend next visit (n.inMode k) = (descend next visit n).map (inMode k) := by
  unfold descend
  rw [content_inMode, digest_inMode]
  rcases n.content with _ | ⟨key, value⟩ | ⟨path, child⟩ | slots
  · rfl
  · rfl
  · simp only [Option.map_some, Content.map_extension, hvisit, Visit.map, Visit.told,
      inMode_withContent]
  · simp only [Option.map_some, Content.map_branch, refersTo_inMode]
    split
    · rw [visitSlots_inMode hvisit]
      simp only [Visit.map, inMode_withContent, Option.map_some, Content.map_branch]
    · rfl

/-- **A check commutes with the mode.** Of two trees that differ in their modes only, a check tells
the same and ends in the same way, and it leaves two trees that differ in their modes only. -/
theorem verify_inMode (key value : Bytes) (proof : List Bytes) (n : Node) :
    verify key value proof (n.inMode k) = (verify key value proof n).map (inMode k) := by
  induction proof generalizing n with
  | nil =>
      rw [verify, digest_inMode]
      rfl
  | cons entry rest ih =>
      rw [verify, verify, digest_inMode]
      cases openEntry n.digest entry with
      | error f => rfl
      | ok c =>
          simp only [learn_inMode]
          cases c.agree key value with
          | error f => rfl
          | ok _ =>
              cases rest.head? with
              | none => rfl
              | some next => exact descend_inMode (keccak256 next) ih (n.learn c)

end Node

/-! ## Claims -/

/-- Without a key to translate, the mode of a check is the mode of the tree that it returns. -/
theorem Claim.check_mode (c : Claim) (j k : Bool) :
    c.check ⟨k, false⟩ =
      ⟨(c.check ⟨j, false⟩).events, (c.check ⟨j, false⟩).result.map (Node.inMode k)⟩ := by
  have hvisit : c.visit ⟨k, false⟩ = (c.visit ⟨j, false⟩).map (Node.inMode k) :=
    Node.verify_inMode k c.key c.value c.proof (Node.unknown j c.root)
  simp only [check, hvisit, Visit.map]
  cases (c.visit ⟨j, false⟩).verdict <;> rfl

section Check

variable (root key value : Bytes) (proof : List Bytes)

theorem checkProof_mode (j k : Bool) :
    checkProof root key value proof ⟨k, false⟩ =
      ⟨(checkProof root key value proof ⟨j, false⟩).events,
        (checkProof root key value proof ⟨j, false⟩).result.map (Node.inMode k)⟩ := by
  unfold checkProof
  cases Digest.ofBytes root with
  | error f => rfl
  | ok d => exact Claim.check_mode _ j k

/-- Where the trie stores digests of keys, a key as the caller knows it is checked as its digest. -/
theorem checkProof_raw_key :
    checkProof root key value proof ⟨true, true⟩ =
      checkProof root (keccak256 key).bytes value proof ⟨true, false⟩ := rfl

/-- Where it stores the keys themselves, the caller knows them by the same names. -/
theorem checkProof_stored_key (keyIsRaw : Bool) :
    checkProof root key value proof ⟨false, keyIsRaw⟩ =
      checkProof root key value proof ⟨false, false⟩ := by
  cases keyIsRaw <;> rfl

/-- **The mode of keys tags the nodes and translates the claimed key.** Two checks that translate no
key tell the same and end in the same way, whatever their modes; the trees that they return are the
same but for the mode, which every node of each has from its check. A key that is translated is
checked as its digest would be; if the trie stores keys as they are, there is nothing to translate.
-/
theorem mode_only_tags :
    (∀ j k : Bool,
      let t := checkProof root key value proof ⟨j, false⟩
      let u := checkProof root key value proof ⟨k, false⟩
      u.events = t.events ∧ u.result = t.result.map (Node.inMode k) ∧
        ∀ n, u.result = .ok n → ∀ p m, n.at? p = some m → m.hashesKeys = k) ∧
      checkProof root key value proof ⟨true, true⟩ =
        checkProof root (keccak256 key).bytes value proof ⟨true, false⟩ ∧
      checkProof root key value proof ⟨false, true⟩ =
        checkProof root key value proof ⟨false, false⟩ := by
  refine ⟨fun j k => ?_, checkProof_raw_key root key value proof,
    checkProof_stored_key root key value proof true⟩
  intro t u
  have hu : u = ⟨t.events, t.result.map (Node.inMode k)⟩ := checkProof_mode root key value proof j k
  have hevents : u.events = t.events := by rw [hu]
  have hresult : u.result = t.result.map (Node.inMode k) := by rw [hu]
  refine ⟨hevents, hresult, fun n hn p m hm => ?_⟩
  rw [hresult] at hn
  obtain ⟨n', _, rfl⟩ := Content.map_ok _ _ _ hn
  exact Node.hashesKeys_of_at?_inMode k hm

end Check

/-- A proof of two entries, checked in both modes. A key that is no digest of the trie is looked up
as the digest that it has. -/
theorem mode_only_tags_of_extension :
    let root := (keccak256 extensionEntry).bytes
    let proof := [extensionEntry, leafEntry]
    let t := checkProof root [] [9] proof ⟨true, false⟩
    let u := checkProof root [] [9] proof ⟨false, false⟩
    let leaf := Node.mk (keccak256 leafEntry) false (some (.leaf [] [9]))
    let tree := Node.mk (keccak256 extensionEntry) false (some (.extension [] leaf))
    t.result = .ok (tree.inMode true) ∧ u.result = .ok tree ∧ u.events = t.events ∧
      u.result = t.result.map (Node.inMode false) ∧ tree.at? [.child] = some leaf ∧
      leaf.hashesKeys = false ∧
      (checkProof root [] [9] proof ⟨true, true⟩).result =
        .error (.leafKey [] (keccak256 []).bytes) := by
  intro root proof t u leaf tree
  obtain ⟨hmodes, hraw, _⟩ := mode_only_tags root [] [9] proof
  obtain ⟨hevents, hresult, hall⟩ := hmodes true false
  have ht : t.result = .ok (tree.inMode true) := by decide +kernel
  have hu : u.result = .ok tree := by decide +kernel
  have hchild : tree.at? [.child] = some leaf := rfl
  have hdigest : (checkProof root (keccak256 []).bytes [9] proof ⟨true, false⟩).result =
      .error (.leafKey [] (keccak256 []).bytes) := by decide +kernel
  exact ⟨ht, hu, hevents, hresult, hchild, hall tree hu [.child] leaf hchild,
    (congrArg Told.result hraw).trans hdigest⟩

end Patricia
