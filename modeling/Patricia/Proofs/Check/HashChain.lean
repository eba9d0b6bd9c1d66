import Patricia.Proofs.Node.Descent
import Patricia.Proofs.Node.Decode

/-
  Which proofs are accepted.

  `HashChain` states, without any check being run, what a list of entries has to be: the first one
  hashes to the root, each one encodes a node, each one refers to the hash of the next, and a leaf
  at the end states the claim. `checkProof_ok_iff` says that these proofs are the accepted ones,
  besides the empty proof for the empty trie.

  Not a claim about the trie: a chain may end at an extension or a branch, which state no value,
  and no path through the slots is compared with the key. Nothing is assumed about keccak-256;
  what its collisions would allow is allowed here too.
-/

namespace Patricia

/-- The entry `e` is an extension or a branch that refers to the hash of `next`. -/
def Linked (e next : Bytes) : Prop :=
  (∃ path, Content.decode e = .ok (.extension path (keccak256 next))) ∨
    ∃ slots, Content.decode e = .ok (.branch slots) ∧ some (keccak256 next) ∈ slots

/-- A chain of entries from the hash `root` down to the value of `key`. -/
structure HashChain (root : Digest) (key value : Bytes) (proof : List Bytes) : Prop where
  /-- There is a first entry, and it hashes to the root. -/
  first : proof.head?.map keccak256 = some root
  decodes : ∀ e ∈ proof, ∃ c, Content.decode e = .ok c
  linked : proof.IsChain Linked
  /-- A leaf at the end has the claimed key and value. -/
  last : ∀ e, proof.getLast? = some e →
    ∀ k v, Content.decode e = .ok (.leaf k v) → k = key ∧ v = value

theorem Content.agree_ok_iff {α : Type} (key value : Bytes) (c : Content α) :
    c.agree key value = .ok () ↔ ∀ k v, c = .leaf k v → k = key ∧ v = value := by
  cases c with
  | leaf k v =>
      by_cases hk : k = key <;> by_cases hv : v = value <;> simp [Content.agree, hk, hv]
  | extension path child => simp [Content.agree]
  | branch slots => simp [Content.agree]

theorem Linked.agree {e next : Bytes} (h : Linked e next) (key value : Bytes) :
    ∃ c, Content.decode e = .ok c ∧ c.agree key value = .ok () := by
  obtain ⟨path, hc⟩ | ⟨slots, hc, _⟩ := h
  · exact ⟨_, hc, rfl⟩
  · exact ⟨_, hc, rfl⟩

/-! ## The chain, entry by entry -/

namespace HashChain

variable {root : Digest} {key value : Bytes}

theorem singleton_iff (e : Bytes) :
    HashChain root key value [e] ↔
      ∃ c, openEntry root e = .ok c ∧ c.agree key value = .ok () := by
  constructor
  · intro h
    obtain ⟨c, hc⟩ := h.decodes e (by simp)
    have hroot : keccak256 e = root := by simpa using h.first
    refine ⟨c, openEntry_eq_ok.mpr ⟨hroot, hc⟩, ?_⟩
    rw [Content.agree_ok_iff]
    rintro k v rfl
    exact h.last e rfl k v hc
  · rintro ⟨c, hopen, hagree⟩
    obtain ⟨hroot, hc⟩ := openEntry_eq_ok.mp hopen
    refine ⟨by simp [hroot], ?_, List.IsChain.singleton _, ?_⟩
    · intro e' he'
      rw [List.mem_singleton.mp he']
      exact ⟨c, hc⟩
    · intro e' he' k v hleaf
      obtain rfl : e = e' := by simpa using he'
      rw [hc] at hleaf
      exact (Content.agree_ok_iff key value c).mp hagree k v (Except.ok.inj hleaf)

theorem cons_cons_iff (e next : Bytes) (rest : List Bytes) :
    HashChain root key value (e :: next :: rest) ↔
      keccak256 e = root ∧ Linked e next ∧
        HashChain (keccak256 next) key value (next :: rest) := by
  constructor
  · intro h
    obtain ⟨hlink, hchain⟩ := List.isChain_cons_cons.mp h.linked
    refine ⟨by simpa using h.first, hlink, rfl, ?_, hchain, ?_⟩
    · exact fun e' he' => h.decodes e' (List.mem_cons_of_mem _ he')
    · exact fun e' he' => h.last e' he'
  · rintro ⟨hroot, hlink, h⟩
    refine ⟨by simp [hroot], ?_, List.isChain_cons_cons.mpr ⟨hlink, h.linked⟩, ?_⟩
    · intro e' he'
      rcases List.mem_cons.mp he' with rfl | he'
      · obtain ⟨c, hc, _⟩ := hlink.agree key value
        exact ⟨c, hc⟩
      · exact h.decodes e' he'
    · exact fun e' he' => h.last e' he'

end HashChain

/-! ## The descent, entry by entry -/

theorem descent_singleton_ok (key value e : Bytes) (d : Digest) :
    (descent key value [e] d).verdict = .ok () ↔
      ∃ c, openEntry d e = .ok c ∧ c.agree key value = .ok () := by
  constructor
  · intro h
    cases hopen : openEntry d e with
    | error f =>
        rw [descent_of_open key value e [] d hopen] at h
        cases h
    | ok c =>
        cases hagree : c.agree key value with
        | error f =>
            rw [descent_of_agree key value e [] d hopen hagree] at h
            cases h
        | ok _ => exact ⟨c, rfl, hagree⟩
  · rintro ⟨c, hopen, hagree⟩
    rw [descent_singleton key value e d hopen hagree]
    rfl

/-- The first entry of a proof only ever passes a check against its own hash. -/
theorem descent_ok_digest (key value e : Bytes) (rest : List Bytes) (d : Digest)
    (h : (descent key value (e :: rest) d).verdict = .ok ()) : d = keccak256 e := by
  by_contra hne
  rw [descent_of_open key value e rest d (openEntry_of_ne (Ne.symm hne))] at h
  cases h

/-- Behind an entry that passes, the proof goes on below what that entry refers to. -/
theorem follow_ok (key value e next : Bytes) (rest : List Bytes) (d : Digest) (c : Content Digest)
    (hc : Content.decode e = .ok c)
    (h : (c.follow (keccak256 next) (descent key value (next :: rest)) d).verdict = .ok ()) :
    Linked e next ∧ (descent key value (next :: rest) (keccak256 next)).verdict = .ok () := by
  cases c with
  | leaf k v => cases h
  | extension path child =>
      obtain rfl : child = keccak256 next := descent_ok_digest _ _ _ _ _ h
      exact ⟨Or.inl ⟨path, hc⟩, h⟩
  | branch slots =>
      by_cases hmem : some (keccak256 next) ∈ slots
      · rw [follow_branch_verdict _ _ _ _ hmem] at h
        exact ⟨Or.inr ⟨slots, hc, hmem⟩, h⟩
      · simp only [Content.follow, if_neg hmem] at h
        cases h

theorem descent_cons_cons_ok (key value e next : Bytes) (rest : List Bytes) (d : Digest) :
    (descent key value (e :: next :: rest) d).verdict = .ok () ↔
      keccak256 e = d ∧ Linked e next ∧
        (descent key value (next :: rest) (keccak256 next)).verdict = .ok () := by
  constructor
  · intro h
    cases hopen : openEntry d e with
    | error f =>
        rw [descent_of_open key value e _ d hopen] at h
        cases h
    | ok c =>
        obtain ⟨hd, hc⟩ := openEntry_eq_ok.mp hopen
        cases hagree : c.agree key value with
        | error f =>
            rw [descent_of_agree key value e _ d hopen hagree] at h
            cases h
        | ok _ =>
            rw [descent_cons_cons key value e rest d next hopen hagree] at h
            exact ⟨hd, follow_ok key value e next rest d c hc h⟩
  · rintro ⟨hd, hlink, h⟩
    obtain ⟨path, hc⟩ | ⟨slots, hc, hmem⟩ := hlink
    · rw [descent_cons_cons key value e rest d next (openEntry_eq_ok.mpr ⟨hd, hc⟩) rfl]
      exact h
    · rw [descent_cons_cons key value e rest d next (openEntry_eq_ok.mpr ⟨hd, hc⟩) rfl,
        follow_branch_verdict _ _ _ _ hmem]
      exact h

/-- Below a digest, the proofs that end well are the chains from it. -/
theorem descent_ok_iff_hashChain (key value : Bytes) (proof : List Bytes) (hne : proof ≠ [])
    (d : Digest) :
    (descent key value proof d).verdict = .ok () ↔ HashChain d key value proof := by
  induction proof generalizing d with
  | nil => exact absurd rfl hne
  | cons e rest ih =>
      cases rest with
      | nil => rw [descent_singleton_ok, HashChain.singleton_iff]
      | cons next rest =>
          rw [descent_cons_cons_ok, HashChain.cons_cons_iff, ih (List.cons_ne_nil _ _)]

/-! ## Accepted claims -/

theorem emptyProofVerdict_ok_iff (root : Digest) (value : Bytes) :
    emptyProofVerdict root value = .ok () ↔ root = emptyTrieRoot ∧ value = emptyValue := by
  unfold emptyProofVerdict
  by_cases hr : root = emptyTrieRoot <;> by_cases hv : value = emptyValue <;> simp [hr, hv]

/-- A check of a claim ends as the descent from its root does. -/
theorem Claim.check_verdict (c : Claim) (mode : KeyMode) :
    (c.check mode).result.map (fun _ => ()) =
      (descent (c.soughtKey mode) c.value c.proof c.root).verdict := by
  rw [← Node.verify_unknown_outcome _ _ mode.hashesKeys, Visit.outcome_verdict]
  simp only [Claim.check, Claim.visit]
  cases ((Node.unknown mode.hashesKeys c.root).verify (c.soughtKey mode) c.value c.proof).verdict
    <;> rfl

theorem Claim.check_ok_iff (c : Claim) (mode : KeyMode) :
    (∃ n, (c.check mode).result = .ok n) ↔
      (descent (c.soughtKey mode) c.value c.proof c.root).verdict = .ok () := by
  rw [← Claim.check_verdict]
  cases (c.check mode).result <;> simp [Except.map]

theorem Claim.check_error_iff (c : Claim) (mode : KeyMode) (f : Fault) :
    (c.check mode).result = .error f ↔
      (descent (c.soughtKey mode) c.value c.proof c.root).verdict = .error f := by
  rw [← Claim.check_verdict]
  cases (c.check mode).result <;> simp [Except.map]

theorem checkProof_digest (root : Digest) (key value : Bytes) (proof : List Bytes)
    (mode : KeyMode) :
    checkProof root.bytes key value proof mode = Claim.check ⟨root, key, value, proof⟩ mode := by
  simp only [checkProof, Digest.ofBytes, Digest.ofBytes?_bytes]

theorem Claim.soughtKey_eq (c : Claim) (mode : KeyMode) :
    c.soughtKey mode =
      if mode.keyIsRaw ∧ mode.hashesKeys then (keccak256 c.key).bytes else c.key := by
  unfold Claim.soughtKey trieKey
  cases mode.keyIsRaw <;> cases mode.hashesKeys <;> simp

/-- **The accepted proofs are the hash chains.** A claim is accepted exactly when either its proof
is empty, the root is that of the empty trie and the value is the byte `00`, or the proof is a
chain from the root to the key that the trie stores. -/
theorem checkProof_ok_iff (root : Digest) (key value : Bytes) (proof : List Bytes)
    (mode : KeyMode) :
    (∃ n, (checkProof root.bytes key value proof mode).result = .ok n) ↔
      (proof = [] ∧ root = emptyTrieRoot ∧ value = [0]) ∨
        HashChain root
          (if mode.keyIsRaw ∧ mode.hashesKeys then (keccak256 key).bytes else key) value proof := by
  rw [checkProof_digest, Claim.check_ok_iff, Claim.soughtKey_eq]
  by_cases hne : proof = []
  · subst hne
    have hno : ∀ k, ¬ HashChain root k value [] := fun k h => by simpa using h.first
    simp only [descent, emptyProofVerdict_ok_iff, emptyValue, hno, or_false, true_and]
  · rw [descent_ok_iff_hashChain _ _ _ hne]
    simp only [hne, false_and, false_or]

end Patricia
