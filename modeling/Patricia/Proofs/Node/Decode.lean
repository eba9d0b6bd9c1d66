import Patricia.Node.Verify
import Patricia.Proofs.Path.Compact

/-
  What decoding an entry gives.

  An entry that opens under a digest hashes to it and decodes (`openEntry_eq_ok`), so the digest
  and the entry decide the content; where keccak-256 has no collision among the entries at hand
  (`CollisionFree`), the digest decides the entry. A branch always has seventeen slots
  (`decode_branch_length`). Whatever the bytes are, decoding fails only with a fault of the family
  `nodeDecoding` (`decode_fault`): the packing of a path, which could fail otherwise, is never at
  fault there.
-/

namespace Patricia

theorem openEntry_eq_ok {expected : Digest} {entry : Bytes} {c : Content Digest} :
    openEntry expected entry = .ok c ↔
      keccak256 entry = expected ∧ Content.decode entry = .ok c := by
  unfold openEntry
  by_cases h : keccak256 entry = expected <;> simp [h]

theorem openEntry_of_eq {expected : Digest} {entry : Bytes} (h : keccak256 entry = expected) :
    openEntry expected entry = Content.decode entry := by
  unfold openEntry
  rw [if_neg (not_not_intro h)]

theorem openEntry_of_ne {expected : Digest} {entry : Bytes} (h : keccak256 entry ≠ expected) :
    openEntry expected entry = .error (.entryDigest (keccak256 entry) expected) := by
  unfold openEntry
  rw [if_pos h]

/-- Keccak-256 has no collision among the entries. -/
def CollisionFree (entries : List Bytes) : Prop :=
  ∀ a ∈ entries, ∀ b ∈ entries, keccak256 a = keccak256 b → a = b

/-- The fault is one of bytes that encode no node. -/
def Fault.IsDecoding (f : Fault) : Prop := f.kind?.bind Kind.parent? = some .nodeDecoding

namespace Content

theorem map_fault {ε α β : Type} (g : α → β) (e : Except ε α) (f : ε)
    (h : e.map g = .error f) : e = .error f := by
  cases e with
  | error f' => simpa [Except.map] using h
  | ok a => cases h

theorem map_ok {ε α β : Type} (g : α → β) (e : Except ε α) (b : β) (h : e.map g = .ok b) :
    ∃ a, e = .ok a ∧ g a = b := by
  cases e with
  | error f => cases h
  | ok a => exact ⟨a, rfl, Except.ok.inj h⟩

/-! ## The slots of a branch -/

theorem slots_length (items : List Rlp.Item) (i : Nat) (found : List (Option Digest))
    (h : slots i items = .ok found) : found.length = items.length := by
  induction items generalizing i found with
  | nil =>
      cases h
      rfl
  | cons item rest ih =>
      simp only [slots] at h
      split at h
      · cases h
      · obtain ⟨others, hothers, rfl⟩ := map_ok _ _ _ h
        rw [List.length_cons, ih (i + 1) others hothers, List.length_cons]

theorem reference_ne_branch (b path : Bytes) (found : List (Option Digest)) :
    (reference b).map (extension path) ≠ .ok (branch found) := by
  intro h
  obtain ⟨d, _, hd⟩ := map_ok _ _ _ h
  cases hd

theorem ofPair_ne_branch (first second : Rlp.Item) (found : List (Option Digest)) :
    ofPair first second ≠ .ok (branch found) := by
  intro h
  unfold ofPair at h
  split at h
  · cases h
  · split at h
    · cases h
    · split at h
      · cases h
      · split at h
        · cases h
        · split at h
          · cases h
          · exact reference_ne_branch _ _ _ h

theorem ofItems_branch_length (items : List Rlp.Item) (found : List (Option Digest))
    (h : ofItems items = .ok (branch found)) : found.length = slotCount := by
  unfold ofItems at h
  split at h
  · exact absurd h (ofPair_ne_branch _ _ _)
  · split at h
    · next hlen =>
        obtain ⟨s, hs, hfound⟩ := map_ok _ _ _ h
        cases hfound
        rw [slots_length items 0 found hs, hlen]
    · cases h

theorem decode_branch_length (raw : Bytes) (found : List (Option Digest))
    (h : decode raw = .ok (branch found)) : found.length = slotCount := by
  unfold decode at h
  split at h
  · cases h
  · cases h
  · exact ofItems_branch_length _ _ h

/-! ## The faults of decoding -/

theorem expectBytes_fault (place : Place) (item : Rlp.Item) (f : Fault)
    (h : expectBytes place item = .error f) : f.IsDecoding := by
  cases item with
  | bytes b => cases h
  | list items =>
      cases h
      rfl

theorem reference_fault (b : Bytes) (f : Fault) (h : reference b = .error f) : f.IsDecoding := by
  unfold reference at h
  split at h
  · cases h
    rfl
  · cases h

theorem slot_fault (i : Nat) (item : Rlp.Item) (f : Fault) (h : slot i item = .error f) :
    f.IsDecoding := by
  unfold slot at h
  split at h
  · next he =>
      cases h
      exact expectBytes_fault _ _ _ he
  · cases h
  · exact reference_fault _ _ (map_fault _ _ _ h)

theorem slots_fault (items : List Rlp.Item) (i : Nat) (f : Fault)
    (h : slots i items = .error f) : f.IsDecoding := by
  induction items generalizing i with
  | nil => cases h
  | cons item rest ih =>
      simp only [slots] at h
      split at h
      · next hs =>
          cases h
          exact slot_fault _ _ _ hs
      · exact ih (i + 1) (map_fault _ _ _ h)

theorem ofCompact_fault (compact : Bytes) (f : Fault) (h : Key.ofCompact compact = .error f) :
    f.IsDecoding := by
  have hkind : f.kind? = some .malformedEncoding := Compact.decode_fault h
  rw [Fault.IsDecoding, hkind]
  rfl

theorem ofPair_fault (first second : Rlp.Item) (f : Fault) (h : ofPair first second = .error f) :
    f.IsDecoding := by
  unfold ofPair at h
  split at h
  · next he =>
      cases h
      exact expectBytes_fault _ _ _ he
  · split at h
    · next hc =>
        cases h
        exact ofCompact_fault _ _ hc
    · next compact _ _ key hkey =>
        split at h
        · next he =>
            cases h
            exact expectBytes_fault _ _ _ he
        · -- The bare form exists, so its fault is no case.
          obtain ⟨path, hpath⟩ := Key.bare_ofCompact compact key hkey
          rw [hpath] at h
          dsimp only at h
          split at h
          · cases h
          · exact reference_fault _ _ (map_fault _ _ _ h)

theorem ofItems_fault (items : List Rlp.Item) (f : Fault) (h : ofItems items = .error f) :
    f.IsDecoding := by
  unfold ofItems at h
  split at h
  · exact ofPair_fault _ _ _ h
  · split at h
    · exact slots_fault _ _ _ (map_fault _ _ _ h)
    · cases h
      rfl

/-- Bytes that do not decode have a fault of the family `nodeDecoding`. -/
theorem decode_fault (raw : Bytes) (f : Fault) (h : decode raw = .error f) : f.IsDecoding := by
  unfold decode at h
  split at h
  · cases h
    rfl
  · cases h
    rfl
  · exact ofItems_fault _ _ h

theorem decodeNodes_error_iff (raw : Bytes) (hashesKeys : Bool) (f : Fault) :
    decodeNodes raw hashesKeys = .error f ↔ decode raw = .error f := by
  refine ⟨map_fault _ _ _, fun h => ?_⟩
  rw [decodeNodes, h]
  rfl

end Content

/-! ## Three entries -/

/-- An entry of a leaf: an empty rest of a path, and the value `9`. -/
def leafEntry : Bytes := [0xc2, 0x20, 0x09]

/-- An entry of an extension with an empty path, which leads to `leafEntry`. -/
def extensionEntry : Bytes := [0xe2, 0x00, 0xa0] ++ (keccak256 leafEntry).bytes

/-- An entry of a branch: `leafEntry` in slot 0, `extensionEntry` in slot 1. -/
def branchEntry : Bytes :=
  [0xf8, 0x51, 0xa0] ++ (keccak256 leafEntry).bytes ++ [0xa0] ++
    (keccak256 extensionEntry).bytes ++ List.replicate 15 0x80

end Patricia
