import Patricia.Proofs.Check.HashChain

/-
  Which fault a rejected proof is told.

  Five checks stand against every entry (`EntryCheck`, in their order). `EntryCheck.faultAt` gives
  the fault of an entry under each of them from the list alone, and `FirstFault` is the first
  failing one: the least index, and at that index the earliest check. `firstFault_decides` says
  that a rejected non-empty proof is told exactly this fault, and that the entries behind the
  faulty one have no part in it; only `leafLast`, which is about them, needs that there are any.

  The link to an entry under a branch is looked up in the parent and the link to an entry under an
  extension in the child, so the two have different faults; both come before anything else that is
  checked of the entry, and behind everything that is checked of its parent. Which text each fault
  has is said by `Fault.Tells`, from the list alone.
-/

namespace Patricia

/-- The checks that an entry has to pass. -/
inductive EntryCheck
  /-- The entry hashes to what its predecessor, or the root, refers to. -/
  | link
  /-- The entry encodes a node. -/
  | decoding
  /-- A leaf has the claimed key. -/
  | leafKey
  /-- A leaf has the claimed value. -/
  | leafValue
  /-- Nothing stands behind a leaf. -/
  | leafLast
deriving DecidableEq

/-! ## The fault of one entry -/

/-- The fault of an entry that has to hash to `expected`. -/
def digestFault (expected : Digest) (e : Bytes) : Option Fault :=
  if keccak256 e = expected then none else some (.entryDigest (keccak256 e) expected)

/-- The fault of an entry that stands behind the entry `parent`. Behind a leaf, and behind bytes
that encode no node, there is nothing to be linked to. -/
def referenceFault (parent e : Bytes) : Option Fault :=
  match Content.decode parent with
  | .ok (.extension _ child) => digestFault child e
  | .ok (.branch slots) =>
    if slots.contains (some (keccak256 e)) then none
    else some (.noSuchChild (keccak256 parent) (keccak256 e))
  | _ => none

/-- The fault of entry `i` of a claim's proof in its link. -/
def linkFault (c : Claim) : Nat → Option Fault
  | 0 => c.proof[0]?.bind (digestFault c.root)
  | i + 1 => c.proof[i]?.bind (fun parent => c.proof[i + 1]?.bind (referenceFault parent))

/-- The fault of bytes that encode no node. -/
def decodingFault (e : Bytes) : Option Fault :=
  match Content.decode e with
  | .error f => some f
  | .ok _ => none

/-- The fault that `test` finds in the key and value of a leaf. -/
def leafFault (test : Bytes → Bytes → Option Fault) (e : Bytes) : Option Fault :=
  match Content.decode e with
  | .ok (.leaf k v) => test k v
  | _ => none

/-- The fault of a leaf with another key. -/
def leafKeyFault (key : Bytes) : Bytes → Option Fault :=
  leafFault (fun k _ => if k = key then none else some (.leafKey k key))

/-- The fault of a leaf with another value. -/
def leafValueFault (value : Bytes) : Bytes → Option Fault :=
  leafFault (fun _ v => if v = value then none else some (.leafValue v value))

/-- The fault of a leaf with entries behind it. -/
def leafLastFault (e : Bytes) : Option Fault :=
  leafFault (fun _ _ => some (.pastLeaf (keccak256 e))) e

namespace EntryCheck

/-- The place of a check in their order. -/
def rank : EntryCheck → Nat
  | link => 0
  | decoding => 1
  | leafKey => 2
  | leafValue => 3
  | leafLast => 4

/-- The fault, if any, of entry `i` of a claim's proof under a check. -/
def faultAt (c : Claim) (i : Nat) : EntryCheck → Option Fault
  | link => linkFault c i
  | decoding => c.proof[i]?.bind decodingFault
  | leafKey => c.proof[i]?.bind (leafKeyFault c.key)
  | leafValue => c.proof[i]?.bind (leafValueFault c.value)
  | leafLast => c.proof[i]?.bind (fun e => if i + 1 < c.proof.length then leafLastFault e else none)

/-- The family of the faults of a check. -/
def Raises (f : Fault) : EntryCheck → Prop
  | link => f.kind? = some .hashMismatch
  | decoding => f.IsDecoding
  | leafKey => f.kind? = some .keyMismatch
  | leafValue => f.kind? = some .valueMismatch
  | leafLast => f.kind? = some .internal

theorem rank_injective {a b : EntryCheck} (h : a.rank = b.rank) : a = b := by
  cases a <;> cases b <;> simp_all [rank]

end EntryCheck

/-- `f` is the fault of the first check, `check` of entry `i`, that a claim's proof fails. -/
structure FirstFault (c : Claim) (i : Nat) (check : EntryCheck) (f : Fault) : Prop where
  before : ∀ j < i, ∀ other : EntryCheck, other.faultAt c j = none
  earlier : ∀ other : EntryCheck, other.rank < check.rank → other.faultAt c i = none
  fails : check.faultAt c i = some f

/-! ## Leaves -/

theorem leafFault_eq_some_iff (test : Bytes → Bytes → Option Fault) (e : Bytes) (f : Fault) :
    leafFault test e = some f ↔ ∃ k v, Content.decode e = .ok (.leaf k v) ∧ test k v = some f := by
  unfold leafFault
  constructor
  · intro h
    split at h
    · next k v hc => exact ⟨k, v, hc, h⟩
    · cases h
  · rintro ⟨k, v, hc, h⟩
    rw [hc]
    exact h

theorem leafFault_eq_none_iff (test : Bytes → Bytes → Option Fault) (e : Bytes) :
    leafFault test e = none ↔ ∀ k v, Content.decode e = .ok (.leaf k v) → test k v = none := by
  rw [Option.eq_none_iff_forall_ne_some]
  constructor
  · intro h k v hc
    rw [Option.eq_none_iff_forall_ne_some]
    exact fun f hf => h f ((leafFault_eq_some_iff test e f).mpr ⟨k, v, hc, hf⟩)
  · intro h f hf
    obtain ⟨k, v, hc, htest⟩ := (leafFault_eq_some_iff test e f).mp hf
    rw [h k v hc] at htest
    cases htest

theorem leafKeyFault_eq_none_iff (key e : Bytes) :
    leafKeyFault key e = none ↔ ∀ k v, Content.decode e = .ok (.leaf k v) → k = key := by
  simp [leafKeyFault, leafFault_eq_none_iff]

theorem leafValueFault_eq_none_iff (value e : Bytes) :
    leafValueFault value e = none ↔ ∀ k v, Content.decode e = .ok (.leaf k v) → v = value := by
  simp [leafValueFault, leafFault_eq_none_iff]

theorem leafLastFault_eq_none_iff (e : Bytes) :
    leafLastFault e = none ↔ ∀ k v, Content.decode e ≠ .ok (.leaf k v) := by
  simp [leafLastFault, leafFault_eq_none_iff]

/-! ## What is told of a fault -/

/-- The family and the text with which `f` tells that entry `i` of a claim's proof fails a check. A
link behind a branch is told as a child that the branch does not have, any other as a digest that
the entry does not have; what decoding tells is kept. -/
inductive Fault.Tells (f : Fault) (c : Claim) : Nat → EntryCheck → Prop
  | root {e : Bytes} (he : c.proof[0]? = some e) (hkind : f.kind? = some .hashMismatch)
    (htext : f.message = "proof entry hashes to " ++ Hex.marked (keccak256 e).bytes ++
      ", expected " ++ Hex.marked c.root.bytes) : Fault.Tells f c 0 .link
  | extension {i : Nat} {parent e path : Bytes} {child : Digest}
    (hparent : c.proof[i]? = some parent) (hc : Content.decode parent = .ok (.extension path child))
    (he : c.proof[i + 1]? = some e) (hkind : f.kind? = some .hashMismatch)
    (htext : f.message = "proof entry hashes to " ++ Hex.marked (keccak256 e).bytes ++
      ", expected " ++ Hex.marked child.bytes) : Fault.Tells f c (i + 1) .link
  | branch {i : Nat} {parent e : Bytes} {slots : List (Option Digest)}
    (hparent : c.proof[i]? = some parent) (hc : Content.decode parent = .ok (.branch slots))
    (he : c.proof[i + 1]? = some e) (hkind : f.kind? = some .hashMismatch)
    (htext : f.message = "branch " ++ Hex.marked (keccak256 parent).bytes ++
      " has no child " ++ Hex.marked (keccak256 e).bytes) : Fault.Tells f c (i + 1) .link
  | decoding {i : Nat} {e : Bytes} {g : Fault} (he : c.proof[i]? = some e)
    (hc : ∀ hashesKeys, Content.decodeNodes e hashesKeys = .error g)
    (hkind : f.kind? = g.kind?) (htext : f.message = g.message) : Fault.Tells f c i .decoding
  | leafKey {i : Nat} {e k v : Bytes} (he : c.proof[i]? = some e)
    (hc : Content.decode e = .ok (.leaf k v)) (hkind : f.kind? = some .keyMismatch)
    (htext : f.message = "leaf key " ++ Hex.marked k ++ " does not match " ++ Hex.marked c.key) :
    Fault.Tells f c i .leafKey
  | leafValue {i : Nat} {e k v : Bytes} (he : c.proof[i]? = some e)
    (hc : Content.decode e = .ok (.leaf k v)) (hkind : f.kind? = some .valueMismatch)
    (htext : f.message =
      "leaf value " ++ Hex.marked v ++ " does not match " ++ Hex.marked c.value) :
    Fault.Tells f c i .leafValue
  | leafLast {i : Nat} {e k v : Bytes} (he : c.proof[i]? = some e)
    (hc : Content.decode e = .ok (.leaf k v)) (hkind : f.kind? = some .internal)
    (htext : f.message = "proof continues past LeafNode " ++ Hex.marked (keccak256 e).bytes) :
    Fault.Tells f c i .leafLast

theorem digestFault_eq_some {expected : Digest} {e : Bytes} {f : Fault}
    (h : digestFault expected e = some f) : f = .entryDigest (keccak256 e) expected := by
  unfold digestFault at h
  split at h
  · cases h
  · exact (Option.some.inj h).symm

theorem Fault.Tells.of_referenceFault {c : Claim} {i : Nat} {parent e : Bytes} {f : Fault}
    (hparent : c.proof[i]? = some parent) (he : c.proof[i + 1]? = some e)
    (h : referenceFault parent e = some f) : f.Tells c (i + 1) .link := by
  unfold referenceFault at h
  split at h
  · next path child hc =>
      obtain rfl := digestFault_eq_some h
      exact .extension hparent hc he rfl rfl
  · next slots hc =>
      split at h
      · cases h
      · obtain rfl := Option.some.inj h
        exact .branch hparent hc he rfl rfl
  · cases h

theorem Fault.Tells.of_linkFault {c : Claim} {i : Nat} {f : Fault} (h : linkFault c i = some f) :
    f.Tells c i .link := by
  cases i with
  | zero =>
      obtain ⟨e, he, hfault⟩ := Option.bind_eq_some_iff.mp h
      obtain rfl := digestFault_eq_some hfault
      exact .root he rfl rfl
  | succ i =>
      obtain ⟨parent, hparent, hp⟩ := Option.bind_eq_some_iff.mp h
      obtain ⟨e, he, hfault⟩ := Option.bind_eq_some_iff.mp hp
      exact .of_referenceFault hparent he hfault

theorem Fault.Tells.of_faultAt {c : Claim} {i : Nat} {check : EntryCheck} {f : Fault}
    (h : check.faultAt c i = some f) : f.Tells c i check := by
  cases check with
  | link => exact .of_linkFault h
  | decoding =>
      obtain ⟨e, he, hfault⟩ := Option.bind_eq_some_iff.mp h
      unfold decodingFault at hfault
      split at hfault
      · next g hg =>
          obtain rfl := Option.some.inj hfault
          exact .decoding he
            (fun hashesKeys => (Content.decodeNodes_error_iff e hashesKeys g).mpr hg) rfl rfl
      · cases hfault
  | leafKey =>
      obtain ⟨e, he, hfault⟩ := Option.bind_eq_some_iff.mp h
      obtain ⟨k, v, hc, hk⟩ := (leafFault_eq_some_iff _ e f).mp hfault
      split at hk
      · cases hk
      · obtain rfl := Option.some.inj hk
        exact .leafKey he hc rfl rfl
  | leafValue =>
      obtain ⟨e, he, hfault⟩ := Option.bind_eq_some_iff.mp h
      obtain ⟨k, v, hc, hv⟩ := (leafFault_eq_some_iff _ e f).mp hfault
      split at hv
      · cases hv
      · obtain rfl := Option.some.inj hv
        exact .leafValue he hc rfl rfl
  | leafLast =>
      obtain ⟨e, he, hfault⟩ := Option.bind_eq_some_iff.mp h
      split at hfault
      · obtain ⟨k, v, hc, hlast⟩ := (leafFault_eq_some_iff _ e f).mp hfault
        obtain rfl := Option.some.inj hlast
        exact .leafLast he hc rfl rfl
      · cases hfault

theorem Fault.Tells.raises {c : Claim} {i : Nat} {check : EntryCheck} {f : Fault}
    (h : f.Tells c i check) : check.Raises f := by
  cases h with
  | root _ hkind => exact hkind
  | extension _ _ _ hkind => exact hkind
  | branch _ _ _ hkind => exact hkind
  | @decoding _ e g _ hc hkind =>
      have hfault : g.IsDecoding :=
        Content.decode_fault e g ((Content.decodeNodes_error_iff e true g).mp (hc true))
      change f.kind?.bind Kind.parent? = some .nodeDecoding
      rw [hkind]
      exact hfault
  | leafKey _ _ hkind => exact hkind
  | leafValue _ _ hkind => exact hkind
  | leafLast _ _ hkind => exact hkind

/-! ## There is one first fault -/

theorem FirstFault.index_le {c : Claim} {i j : Nat} {a b : EntryCheck} {f g : Fault}
    (h : FirstFault c i a f) (h' : FirstFault c j b g) : i ≤ j := by
  by_contra hlt
  have := h.before j (by omega) b
  rw [h'.fails] at this
  cases this

theorem FirstFault.rank_le {c : Claim} {i : Nat} {a b : EntryCheck} {f g : Fault}
    (h : FirstFault c i a f) (h' : FirstFault c i b g) : a.rank ≤ b.rank := by
  by_contra hlt
  have := h.earlier b (by omega)
  rw [h'.fails] at this
  cases this

theorem FirstFault.unique {c : Claim} {i j : Nat} {a b : EntryCheck} {f g : Fault}
    (h : FirstFault c i a f) (h' : FirstFault c j b g) : f = g := by
  obtain rfl := Nat.le_antisymm (h.index_le h') (h'.index_le h)
  obtain rfl := EntryCheck.rank_injective (Nat.le_antisymm (h.rank_le h') (h'.rank_le h))
  exact Option.some.inj (h.fails.symm.trans h'.fails)

theorem FirstFault.lt_length {c : Claim} {i : Nat} {check : EntryCheck} {f : Fault}
    (h : FirstFault c i check f) : i < c.proof.length := by
  by_contra hlt
  have hnone : c.proof[i]? = none := List.getElem?_eq_none (by omega)
  have hfails := h.fails
  cases check with
  | link => cases i <;> simp [EntryCheck.faultAt, linkFault, hnone] at hfails
  | _ => simp [EntryCheck.faultAt, hnone] at hfails

/-! ## A chain has no fault -/

theorem referenceFault_of_linked {parent e : Bytes} (h : Linked parent e) :
    referenceFault parent e = none := by
  unfold referenceFault
  obtain ⟨path, hc⟩ | ⟨slots, hc, hmem⟩ := h
  · simp [hc, digestFault]
  · simp [hc, hmem]

theorem HashChain.linked_getElem {root : Digest} {key value : Bytes} {proof : List Bytes}
    (h : HashChain root key value proof) {i : Nat} {e next : Bytes} (he : proof[i]? = some e)
    (hn : proof[i + 1]? = some next) : Linked e next := by
  obtain ⟨hi, rfl⟩ := List.getElem?_eq_some_iff.mp hn
  obtain ⟨_, rfl⟩ := List.getElem?_eq_some_iff.mp he
  exact List.isChain_iff_getElem.mp h.linked i hi

/-- In a chain, a leaf stands at the end. -/
theorem HashChain.leaf_last {root : Digest} {key value : Bytes} {proof : List Bytes}
    (h : HashChain root key value proof) {i : Nat} {e k v : Bytes} (he : proof[i]? = some e)
    (hc : Content.decode e = .ok (.leaf k v)) :
    proof.getLast? = some e ∧ ¬ i + 1 < proof.length := by
  have hlast : ¬ i + 1 < proof.length := by
    intro hi
    obtain ⟨_, hp⟩ | ⟨_, hp, _⟩ := h.linked_getElem he (List.getElem?_eq_getElem hi)
    · rw [hc] at hp
      cases hp
    · rw [hc] at hp
      cases hp
  refine ⟨?_, hlast⟩
  obtain ⟨hi, rfl⟩ := List.getElem?_eq_some_iff.mp he
  have hlen : proof.length - 1 = i := by omega
  rw [List.getLast?_eq_getElem?, hlen, List.getElem?_eq_getElem hi]

theorem HashChain.no_linkFault {c : Claim} (h : HashChain c.root c.key c.value c.proof) (i : Nat) :
    linkFault c i = none := by
  cases i with
  | zero =>
      simp only [linkFault, Option.bind_eq_none_iff]
      intro e he
      have hroot := h.first
      rw [List.head?_eq_getElem?, he] at hroot
      simp [digestFault, Option.some.inj hroot]
  | succ i =>
      simp only [linkFault, Option.bind_eq_none_iff]
      exact fun parent hp e he => referenceFault_of_linked (h.linked_getElem hp he)

theorem HashChain.no_fault {c : Claim} (h : HashChain c.root c.key c.value c.proof) (i : Nat)
    (check : EntryCheck) : check.faultAt c i = none := by
  cases check with
  | link => exact h.no_linkFault i
  | decoding =>
      simp only [EntryCheck.faultAt, Option.bind_eq_none_iff]
      intro e he
      obtain ⟨content, hc⟩ := h.decodes e (List.mem_of_getElem? he)
      simp [decodingFault, hc]
  | leafKey =>
      simp only [EntryCheck.faultAt, Option.bind_eq_none_iff, leafKeyFault_eq_none_iff]
      exact fun e he k v hc => (h.last e (h.leaf_last he hc).1 k v hc).1
  | leafValue =>
      simp only [EntryCheck.faultAt, Option.bind_eq_none_iff, leafValueFault_eq_none_iff]
      exact fun e he k v hc => (h.last e (h.leaf_last he hc).1 k v hc).2
  | leafLast =>
      simp only [EntryCheck.faultAt, Option.bind_eq_none_iff]
      intro e he
      split
      · next hi =>
          rw [leafLastFault_eq_none_iff]
          exact fun k v hc => (h.leaf_last he hc).2 hi
      · rfl

/-! ## A rejected proof has a fault -/

/-- An entry that opens passes the checks that come before those of a leaf. -/
theorem faultAt_zero_of_open (d : Digest) (key value e : Bytes) (rest : List Bytes)
    (content : Content Digest) (hopen : openEntry d e = .ok content) (check : EntryCheck)
    (hrank : check.rank < EntryCheck.leafKey.rank) :
    check.faultAt ⟨d, key, value, e :: rest⟩ 0 = none := by
  obtain ⟨hd, hc⟩ := openEntry_eq_ok.mp hopen
  cases check with
  | link => simp [EntryCheck.faultAt, linkFault, digestFault, hd]
  | decoding => simp [EntryCheck.faultAt, decodingFault, hc]
  | _ => simp [EntryCheck.rank] at hrank

/-- The first entry passes every check that its content decides. -/
theorem faultAt_zero_of_agree (d : Digest) (key value e : Bytes) (rest : List Bytes)
    (content : Content Digest) (hopen : openEntry d e = .ok content)
    (hagree : content.agree key value = .ok ()) (check : EntryCheck)
    (hcheck : check = .leafLast → ∀ k v, content ≠ .leaf k v) :
    check.faultAt ⟨d, key, value, e :: rest⟩ 0 = none := by
  obtain ⟨_, hc⟩ := openEntry_eq_ok.mp hopen
  have hleaf := (Content.agree_ok_iff key value content).mp hagree
  have hopened := faultAt_zero_of_open d key value e rest content hopen
  cases check with
  | link => exact hopened .link (by decide)
  | decoding => exact hopened .decoding (by decide)
  | leafKey =>
      show leafKeyFault key e = none
      rw [leafKeyFault_eq_none_iff]
      exact fun k v hl => (hleaf k v (Except.ok.inj (hc.symm.trans hl))).1
  | leafValue =>
      show leafValueFault value e = none
      rw [leafValueFault_eq_none_iff]
      exact fun k v hl => (hleaf k v (Except.ok.inj (hc.symm.trans hl))).2
  | leafLast =>
      show (if _ then leafLastFault e else none) = none
      rw [(leafLastFault_eq_none_iff e).mpr]
      · exact ite_self none
      · exact fun k v hl => hcheck rfl k v (Except.ok.inj (hc.symm.trans hl))

/-- What stands behind the first entry is at fault as it would be alone, below any digest that
gives its own first entry the same link. -/
theorem faultAt_succ (d d' : Digest) (key value e : Bytes) (rest : List Bytes)
    (hlink : linkFault ⟨d, key, value, e :: rest⟩ 1 = linkFault ⟨d', key, value, rest⟩ 0)
    (check : EntryCheck) (i : Nat) :
    check.faultAt ⟨d, key, value, e :: rest⟩ (i + 1) = check.faultAt ⟨d', key, value, rest⟩ i := by
  cases check with
  | link =>
      cases i with
      | zero => exact hlink
      | succ i => rfl
  | decoding => rfl
  | leafKey => rfl
  | leafValue => rfl
  | leafLast => simp [EntryCheck.faultAt]

theorem FirstFault.succ {d d' : Digest} {key value e : Bytes} {rest : List Bytes} {i : Nat}
    {check : EntryCheck} {f : Fault}
    (hzero : ∀ other : EntryCheck, other.faultAt ⟨d, key, value, e :: rest⟩ 0 = none)
    (hlink : linkFault ⟨d, key, value, e :: rest⟩ 1 = linkFault ⟨d', key, value, rest⟩ 0)
    (h : FirstFault ⟨d', key, value, rest⟩ i check f) :
    FirstFault ⟨d, key, value, e :: rest⟩ (i + 1) check f := by
  have hsucc := faultAt_succ d d' key value e rest hlink
  refine ⟨?_, ?_, ?_⟩
  · intro j hj other
    cases j with
    | zero => exact hzero other
    | succ j =>
        rw [hsucc]
        exact h.before j (by omega) other
  · intro other hrank
    rw [hsucc]
    exact h.earlier other hrank
  · rw [hsucc]
    exact h.fails

theorem FirstFault.zero {c : Claim} {check : EntryCheck} {f : Fault}
    (hearlier : ∀ other : EntryCheck, other.rank < check.rank → other.faultAt c 0 = none)
    (hfails : check.faultAt c 0 = some f) : FirstFault c 0 check f :=
  ⟨fun j hj => absurd hj (Nat.not_lt_zero j), hearlier, hfails⟩

theorem firstFault_of_open (d : Digest) (key value e : Bytes) (rest : List Bytes) (f : Fault)
    (h : openEntry d e = .error f) :
    ∃ check, FirstFault ⟨d, key, value, e :: rest⟩ 0 check f := by
  by_cases hd : keccak256 e = d
  · rw [openEntry_of_eq hd] at h
    refine ⟨.decoding, FirstFault.zero ?_ (by simp [EntryCheck.faultAt, decodingFault, h])⟩
    intro other hrank
    cases other with
    | link => simp [EntryCheck.faultAt, linkFault, digestFault, hd]
    | _ => simp [EntryCheck.rank] at hrank
  · rw [openEntry_of_ne hd] at h
    cases h
    refine ⟨.link, FirstFault.zero ?_ (by simp [EntryCheck.faultAt, linkFault, digestFault, hd])⟩
    intro other hrank
    exact absurd hrank (Nat.not_lt_zero _)

theorem firstFault_of_agree (d : Digest) (key value e : Bytes) (rest : List Bytes)
    (content : Content Digest) (f : Fault) (hopen : openEntry d e = .ok content)
    (h : content.agree key value = .error f) :
    ∃ check, FirstFault ⟨d, key, value, e :: rest⟩ 0 check f := by
  obtain ⟨_, hc⟩ := openEntry_eq_ok.mp hopen
  have hopened := faultAt_zero_of_open d key value e rest content hopen
  cases content with
  | extension path child => cases h
  | branch slots => cases h
  | leaf k v =>
      simp only [Content.agree] at h
      by_cases hk : k = key
      · rw [if_neg (not_not_intro hk)] at h
        by_cases hv : v = value
        · rw [if_neg (not_not_intro hv)] at h
          cases h
        · rw [if_pos hv] at h
          cases h
          refine ⟨.leafValue, FirstFault.zero ?_
            (by simp [EntryCheck.faultAt, leafValueFault, leafFault, hc, hv])⟩
          intro other hrank
          cases other with
          | leafKey => simp [EntryCheck.faultAt, leafKeyFault, leafFault, hc, hk]
          | link => exact hopened .link (by decide)
          | decoding => exact hopened .decoding (by decide)
          | _ => simp [EntryCheck.rank] at hrank
      · rw [if_pos hk] at h
        cases h
        exact ⟨.leafKey, FirstFault.zero hopened
          (by simp [EntryCheck.faultAt, leafKeyFault, leafFault, hc, hk])⟩

theorem firstFault_of_leaf (d : Digest) (key value e next k v : Bytes) (rest : List Bytes)
    (hopen : openEntry d e = .ok (.leaf k v))
    (hagree : (Content.leaf k v : Content Digest).agree key value = .ok ()) :
    FirstFault ⟨d, key, value, e :: next :: rest⟩ 0 .leafLast (.pastLeaf d) := by
  obtain ⟨hd, hc⟩ := openEntry_eq_ok.mp hopen
  refine FirstFault.zero ?_ (by simp [EntryCheck.faultAt, leafLastFault, leafFault, hc, hd])
  intro other hrank
  refine faultAt_zero_of_agree d key value e _ _ hopen hagree other ?_
  rintro rfl
  exact absurd hrank (Nat.lt_irrefl _)

theorem firstFault_of_noSuchChild (d : Digest) (key value e next : Bytes) (rest : List Bytes)
    (slots : List (Option Digest)) (hopen : openEntry d e = .ok (.branch slots))
    (hmem : some (keccak256 next) ∉ slots) :
    FirstFault ⟨d, key, value, e :: next :: rest⟩ 1 .link (.noSuchChild d (keccak256 next)) := by
  obtain ⟨hd, hc⟩ := openEntry_eq_ok.mp hopen
  refine ⟨?_, ?_, ?_⟩
  · intro j hj other
    obtain rfl : j = 0 := by omega
    exact faultAt_zero_of_agree d key value e _ _ hopen rfl other (fun _ k v => by simp)
  · exact fun other hrank => absurd hrank (Nat.not_lt_zero _)
  · simp [EntryCheck.faultAt, linkFault, referenceFault, hc, hmem, hd]

/-- If the first entry passes, what fails is behind a leaf, in a link to a branch, or below the
child that is gone on with. -/
theorem firstFault_of_follow (d : Digest) (key value e next : Bytes) (rest : List Bytes)
    (content : Content Digest) (f : Fault) (hopen : openEntry d e = .ok content)
    (hagree : content.agree key value = .ok ())
    (hbelow : ∀ d', (descent key value (next :: rest) d').verdict = .error f →
      ∃ i check, FirstFault ⟨d', key, value, next :: rest⟩ i check f)
    (h : (content.follow (keccak256 next) (descent key value (next :: rest)) d).verdict =
      .error f) :
    ∃ i check, FirstFault ⟨d, key, value, e :: next :: rest⟩ i check f := by
  obtain ⟨_, hc⟩ := openEntry_eq_ok.mp hopen
  have hpass := faultAt_zero_of_agree d key value e (next :: rest) content hopen hagree
  cases content with
  | leaf k v =>
      cases h
      exact ⟨0, .leafLast, firstFault_of_leaf d key value e next k v rest hopen hagree⟩
  | extension path child =>
      obtain ⟨i, check, hfirst⟩ := hbelow child h
      refine ⟨i + 1, check, hfirst.succ (fun other => hpass other (by simp)) ?_⟩
      simp [linkFault, referenceFault, hc]
  | branch slots =>
      by_cases hmem : some (keccak256 next) ∈ slots
      · rw [follow_branch_verdict _ _ _ _ hmem] at h
        obtain ⟨i, check, hfirst⟩ := hbelow (keccak256 next) h
        refine ⟨i + 1, check, hfirst.succ (fun other => hpass other (by simp)) ?_⟩
        simp [linkFault, referenceFault, digestFault, hc, hmem]
      · simp only [Content.follow, if_neg hmem] at h
        cases h
        exact ⟨1, .link, firstFault_of_noSuchChild d key value e next rest slots hopen hmem⟩

/-- Every way in which a descent below a digest fails is a first fault of the proof. -/
theorem exists_firstFault (key value : Bytes) (proof : List Bytes) (hne : proof ≠ []) (d : Digest)
    (f : Fault) (h : (descent key value proof d).verdict = .error f) :
    ∃ i check, FirstFault ⟨d, key, value, proof⟩ i check f := by
  induction proof generalizing d with
  | nil => exact absurd rfl hne
  | cons e rest ih =>
      cases hopen : openEntry d e with
      | error f' =>
          rw [descent_of_open key value e rest d hopen] at h
          cases h
          obtain ⟨check, hfirst⟩ := firstFault_of_open d key value e rest f hopen
          exact ⟨0, check, hfirst⟩
      | ok content =>
          cases hagree : content.agree key value with
          | error f' =>
              rw [descent_of_agree key value e rest d hopen hagree] at h
              cases h
              obtain ⟨check, hfirst⟩ :=
                firstFault_of_agree d key value e rest content f hopen hagree
              exact ⟨0, check, hfirst⟩
          | ok _ =>
              cases rest with
              | nil =>
                  rw [descent_singleton key value e d hopen hagree] at h
                  cases h
              | cons next rest =>
                  rw [descent_cons_cons key value e rest d next hopen hagree] at h
                  exact firstFault_of_follow d key value e next rest content f hopen hagree
                    (fun d' => ih (List.cons_ne_nil _ _) d') h

/-- A first fault is what the descent fails with. -/
theorem FirstFault.verdict {c : Claim} {i : Nat} {check : EntryCheck} {f : Fault}
    (h : FirstFault c i check f) :
    (descent c.key c.value c.proof c.root).verdict = .error f := by
  have hne : c.proof ≠ [] := List.ne_nil_of_length_pos (Nat.zero_lt_of_lt h.lt_length)
  cases hv : (descent c.key c.value c.proof c.root).verdict with
  | ok _ =>
      have hchain := (descent_ok_iff_hashChain _ _ _ hne _).mp hv
      have hfails := h.fails
      rw [hchain.no_fault i check] at hfails
      cases hfails
  | error g =>
      obtain ⟨j, other, hother⟩ := exists_firstFault _ _ _ hne _ g hv
      rw [h.unique hother]

/-! ## What stands behind the faulty entry -/

/-- Up to index `i`, the faults of a proof are those of any other with the same entries there;
`leafLast` also looks at whether there is more. -/
theorem faultAt_congr (root : Digest) (key value : Bytes) (p q : List Bytes) (i : Nat)
    (hpq : ∀ j ≤ i, p[j]? = q[j]?) (check : EntryCheck)
    (hmore : check = .leafLast → (i + 1 < p.length ↔ i + 1 < q.length)) :
    check.faultAt ⟨root, key, value, p⟩ i = check.faultAt ⟨root, key, value, q⟩ i := by
  have hi := hpq i (Nat.le_refl i)
  cases check with
  | link =>
      cases i with
      | zero => simp only [EntryCheck.faultAt, linkFault, hi]
      | succ i =>
          have hbefore := hpq i (Nat.le_succ i)
          simp only [EntryCheck.faultAt, linkFault, hi, hbefore]
  | decoding => simp only [EntryCheck.faultAt, hi]
  | leafKey => simp only [EntryCheck.faultAt, hi]
  | leafValue => simp only [EntryCheck.faultAt, hi]
  | leafLast => simp only [EntryCheck.faultAt, hi, hmore rfl]

/-- The entries behind a faulty one can be replaced. -/
theorem FirstFault.take_append {root : Digest} {key value : Bytes} {proof : List Bytes} {i : Nat}
    {check : EntryCheck} {f : Fault} (h : FirstFault ⟨root, key, value, proof⟩ i check f)
    (rest : List Bytes) (hrest : check = .leafLast → rest ≠ []) :
    FirstFault ⟨root, key, value, proof.take (i + 1) ++ rest⟩ i check f := by
  have hlen : i < proof.length := h.lt_length
  have htake : (proof.take (i + 1)).length = i + 1 := by
    rw [List.length_take]
    omega
  have hsame : ∀ j ≤ i, proof[j]? = (proof.take (i + 1) ++ rest)[j]? := by
    intro j hj
    rw [List.getElem?_append_left (by omega), List.getElem?_take_of_lt (by omega)]
  have hlength : (proof.take (i + 1) ++ rest).length = i + 1 + rest.length := by
    rw [List.length_append, htake]
  refine ⟨?_, ?_, ?_⟩
  · intro j hj other
    rw [← faultAt_congr root key value proof _ j (fun k hk => hsame k (by omega)) other]
    · exact h.before j hj other
    · intro _
      omega
  · intro other hrank
    rw [← faultAt_congr root key value proof _ i hsame other]
    · exact h.earlier other hrank
    · rintro rfl
      -- No check comes behind `leafLast`.
      cases check <;> simp [EntryCheck.rank] at hrank
  · rw [← faultAt_congr root key value proof _ i hsame check]
    · exact h.fails
    · intro hlast
      have hmore : i + 1 < proof.length := by
        subst hlast
        obtain ⟨_, _, he⟩ := Option.bind_eq_some_iff.mp h.fails
        by_contra hno
        simp only [if_neg hno] at he
        cases he
      have hpos := List.length_pos_of_ne_nil (hrest hlast)
      omega

/-! ## Rejected proofs -/

/-- **The first fault decides.** A non-empty proof that is rejected below a node of which nothing
is known is told the fault of the first check that it fails, in the family of that check and with
its text; and it is told the same whatever entries, or none, stand behind the faulty one, where
behind a leaf there have to be some. -/
theorem firstFault_decides (hashesKeys : Bool) (root : Digest) (key value : Bytes)
    (proof : List Bytes) (hne : proof ≠ [])
    (hrejected : ((Node.unknown hashesKeys root).verify key value proof).verdict ≠ .ok ()) :
    ∃ i check f, FirstFault ⟨root, key, value, proof⟩ i check f ∧ check.Raises f ∧
      f.Tells ⟨root, key, value, proof⟩ i check ∧
      ((Node.unknown hashesKeys root).verify key value proof).verdict = .error f ∧
      ∀ rest, (check = .leafLast → rest ≠ []) →
        ((Node.unknown hashesKeys root).verify key value (proof.take (i + 1) ++ rest)).verdict =
          .error f := by
  have hdescent : ∀ p, ((Node.unknown hashesKeys root).verify key value p).verdict =
      (descent key value p root).verdict := by
    intro p
    rw [← Node.verify_unknown_outcome key value hashesKeys p root, Visit.outcome_verdict]
  cases hv : (descent key value proof root).verdict with
  | ok _ =>
      rw [hdescent, hv] at hrejected
      exact absurd rfl hrejected
  | error f =>
      obtain ⟨i, check, hfirst⟩ := exists_firstFault key value proof hne root f hv
      have htold := Fault.Tells.of_faultAt hfirst.fails
      refine ⟨i, check, f, hfirst, htold.raises, htold, ?_, ?_⟩
      · rw [hdescent, hv]
      · intro rest hrest
        rw [hdescent]
        exact (hfirst.take_append rest hrest).verdict

/-- A proof that leads to a leaf with another value is told one fault, as long as it gets to the
faulty entry. -/
theorem firstFault_decides_other_value :
    [extensionEntry, leafEntry] ≠ [] ∧
      ((Node.unknown true (keccak256 extensionEntry)).verify [] [8]
        [extensionEntry, leafEntry]).verdict ≠ .ok () ∧
      ∃ i check f,
        FirstFault ⟨keccak256 extensionEntry, [], [8], [extensionEntry, leafEntry]⟩ i check f ∧
        check.Raises f ∧
        f.Tells ⟨keccak256 extensionEntry, [], [8], [extensionEntry, leafEntry]⟩ i check ∧
        ((Node.unknown true (keccak256 extensionEntry)).verify [] [8]
          [extensionEntry, leafEntry]).verdict = .error f := by
  have hne : [extensionEntry, leafEntry] ≠ [] := by simp
  have hfails : ((Node.unknown true (keccak256 extensionEntry)).verify [] [8]
      [extensionEntry, leafEntry]).verdict.isOk = false := by decide +kernel
  have hrejected : ((Node.unknown true (keccak256 extensionEntry)).verify [] [8]
      [extensionEntry, leafEntry]).verdict ≠ .ok () := by
    intro h
    rw [h] at hfails
    cases hfails
  obtain ⟨i, check, f, hfirst, hraises, htold, hverdict, _⟩ :=
    firstFault_decides true (keccak256 extensionEntry) [] [8] [extensionEntry, leafEntry] hne
      hrejected
  exact ⟨hne, hrejected, i, check, f, hfirst, hraises, htold, hverdict⟩

end Patricia
