import Patricia.Proofs.Check.HashChain
import Patricia.Proofs.Node.Form
import Patricia.Proofs.Path.Bare

/-
  The encodings behind a content.

  Decoding keeps a path in its bare form, which does not tell whether the path was even or odd, and
  nothing else is lost. A leaf or an extension has the encodings with the one or two compact forms
  of its path (`decode_leaf_iff`, `decode_extension_iff`), and every branch has exactly one encoding
  (`decode_branch_iff`, `exists_encoding_of_branch`). So two entries that decode to one content are
  the same, or differ in the parity of a path whose bare form starts with a zero nibble
  (`decode_ok_iff_twins`).

  `encodings_up_to_parity` puts these together, with what they say of a proof of one entry that is
  a leaf. Not claimed: that two encodings have two digests, which is up to keccak-256.
-/

namespace Patricia

/-- `raw` is the canonical encoding of a list of byte strings. -/
def IsEncodingOf (parts : List Bytes) (raw : Bytes) : Prop :=
  Rlp.IsEncoding (.list (parts.map Rlp.Item.bytes)) raw

theorem IsEncodingOf.unique {parts others : List Bytes} {raw : Bytes} (h : IsEncodingOf parts raw)
    (hother : IsEncodingOf others raw) : parts = others := by
  have hinj : Function.Injective Rlp.Item.bytes := fun _ _ hb => Rlp.Item.bytes.inj hb
  exact List.map_injective_iff.mpr hinj (Rlp.Item.list.inj (Rlp.IsEncoding.unique h hother))

theorem IsEncodingOf.raw_unique {parts : List Bytes} {raw raw' : Bytes} (h : IsEncodingOf parts raw)
    (h' : IsEncodingOf parts raw') : raw = raw' :=
  h.2.trans h'.2.symm

/-- The reference in a slot; an empty slot has none. -/
def slotBytes : Option Digest → Bytes
  | none => []
  | some d => d.bytes

/-- Two encodings with one bare path, of which the first has an even path and the second an odd one.
-/
def ParityTwins (raw raw' : Bytes) : Prop :=
  ∃ isLeaf x rest second, x < 16 ∧
    IsEncodingOf [Compact.evenByte isLeaf :: x :: rest, second] raw ∧
    IsEncodingOf [Compact.oddByte isLeaf x :: rest, second] raw'

namespace Content

/-! ## Lists of items -/

/-- What a pair stands for hangs on its path only as far as that is split. -/
theorem ofItems_pair (compact second : Bytes) :
    ofItems ([compact, second].map Rlp.Item.bytes) =
      match Compact.split compact with
      | .error f => .error f
      | .ok (path, isLeaf) =>
        if isLeaf then .ok (leaf path second) else (reference second).map (extension path) := by
  simp only [List.map_cons, List.map_nil, ofItems, ofPair, expectBytes, Compact.split]
  cases hkey : Key.ofCompact compact with
  | error f => rfl
  | ok key =>
      obtain ⟨path, hpath⟩ := Key.bare_ofCompact compact key hkey
      simp only [hpath]
      rfl

theorem ofItems_ok_cases {items : List Rlp.Item} {c : Content Digest} (h : ofItems items = .ok c) :
    (∃ compact second path isLeaf, items = [compact, second].map Rlp.Item.bytes ∧
      Compact.split compact = .ok (path, isLeaf) ∧
      (if isLeaf then .ok (leaf path second) else (reference second).map (extension path)) =
        .ok c) ∨
    (items.length = slotCount ∧ ∃ found, slots 0 items = .ok found ∧ c = branch found) := by
  unfold ofItems at h
  split at h
  · next first second =>
      obtain ⟨compact, key, b, path, rfl, rfl, hkey, hpath, hc⟩ := (ofPair_ok_iff _ _ _).mp h
      refine Or.inl ⟨compact, b, path, key.isLeaf, rfl, ?_, hc⟩
      exact (Compact.split_ok_iff_key _ _ _).mpr ⟨key, hkey, hpath, rfl⟩
  · split at h
    · next hcount =>
        obtain ⟨found, hfound, rfl⟩ := map_ok _ _ _ h
        exact Or.inr ⟨hcount, found, hfound, rfl⟩
    · cases h

theorem ofItems_leaf_iff (items : List Rlp.Item) (k v : Bytes) :
    ofItems items = .ok (leaf k v) ↔ ∃ compact, Compact.OfBare true k compact ∧
      items = [compact, v].map Rlp.Item.bytes := by
  constructor
  · intro h
    obtain ⟨compact, second, path, isLeaf, rfl, hsplit, hc⟩ | ⟨_, found, _, hc⟩ :=
      ofItems_ok_cases h
    · cases isLeaf with
      | true =>
          cases hc
          exact ⟨compact, (Compact.split_ok_iff _ _ _).mp hsplit, rfl⟩
      | false =>
          obtain ⟨d, _, hd⟩ := map_ok _ _ _ hc
          cases hd
    · cases hc
  · rintro ⟨compact, hcompact, rfl⟩
    rw [ofItems_pair, hcompact.split]
    rfl

theorem ofItems_extension_iff (items : List Rlp.Item) (k : Bytes) (child : Digest) :
    ofItems items = .ok (extension k child) ↔ ∃ compact, Compact.OfBare false k compact ∧
      items = [compact, child.bytes].map Rlp.Item.bytes := by
  constructor
  · intro h
    obtain ⟨compact, second, path, isLeaf, rfl, hsplit, hc⟩ | ⟨_, found, _, hc⟩ :=
      ofItems_ok_cases h
    · cases isLeaf with
      | true => cases hc
      | false =>
          obtain ⟨d, hd, hext⟩ := map_ok _ _ _ hc
          cases hext
          obtain rfl := (reference_ok_iff second child).mp hd
          exact ⟨compact, (Compact.split_ok_iff _ _ _).mp hsplit, rfl⟩
    · cases hc
  · rintro ⟨compact, hcompact, rfl⟩
    rw [ofItems_pair, hcompact.split, (reference_ok_iff child.bytes child).mpr rfl]
    rfl

theorem slotBytes_ofBytes? {b : Bytes} (h : b.length = 0 ∨ b.length = 32) :
    slotBytes (Digest.ofBytes? b) = b := by
  rcases h with hnil | hsize
  · rw [List.length_eq_zero_iff.mp hnil]
    rfl
  · rw [Digest.ofBytes?, dif_pos hsize]
    rfl

theorem ofBytes?_slotBytes (s : Option Digest) : Digest.ofBytes? (slotBytes s) = s := by
  cases s with
  | none => rfl
  | some d => exact Digest.ofBytes?_bytes d

theorem length_slotBytes (s : Option Digest) :
    (slotBytes s).length = 0 ∨ (slotBytes s).length = 32 := by
  cases s with
  | none => exact Or.inl rfl
  | some d => exact Or.inr d.size_eq

theorem ofItems_branch_iff (items : List Rlp.Item) (found : List (Option Digest)) :
    ofItems items = .ok (branch found) ↔
      found.length = slotCount ∧ items = (found.map slotBytes).map Rlp.Item.bytes := by
  constructor
  · intro h
    obtain ⟨compact, second, path, isLeaf, _, _, hc⟩ | ⟨hcount, found', hfound, hc⟩ :=
      ofItems_ok_cases h
    · cases isLeaf with
      | true => cases hc
      | false => exact absurd hc (reference_ne_branch _ _ _)
    · cases hc
      obtain ⟨bs, rfl, hlen, rfl⟩ := (slots_ok_iff _ _ _).mp hfound
      have hbs : (bs.map Digest.ofBytes?).map slotBytes = bs := by
        rw [List.map_map]
        exact (List.map_congr_left (fun b hb => slotBytes_ofBytes? (hlen b hb))).trans
          (List.map_id bs)
      rw [List.length_map] at hcount
      exact ⟨by rw [List.length_map, hcount], by rw [hbs]⟩
  · rintro ⟨hcount, rfl⟩
    have hfound : slots 0 ((found.map slotBytes).map Rlp.Item.bytes) = .ok found := by
      refine (slots_ok_iff _ 0 _).mpr ⟨found.map slotBytes, rfl, ?_, ?_⟩
      · intro b hb
        obtain ⟨s, _, rfl⟩ := List.mem_map.mp hb
        exact length_slotBytes s
      · rw [List.map_map]
        exact ((List.map_congr_left (fun s _ => ofBytes?_slotBytes s)).trans
          (List.map_id found)).symm
    rw [ofItems_of_length (by rw [List.length_map, List.length_map, hcount]), hfound]
    rfl

/-! ## Entries -/

theorem decode_leaf_iff (raw k v : Bytes) :
    decode raw = .ok (leaf k v) ↔
      ∃ compact, Compact.OfBare true k compact ∧ IsEncodingOf [compact, v] raw := by
  rw [decode_ok_iff_items]
  constructor
  · rintro ⟨items, hraw, hitems⟩
    obtain ⟨compact, hcompact, rfl⟩ := (ofItems_leaf_iff items k v).mp hitems
    exact ⟨compact, hcompact, hraw⟩
  · rintro ⟨compact, hcompact, hraw⟩
    exact ⟨_, hraw, (ofItems_leaf_iff _ k v).mpr ⟨compact, hcompact, rfl⟩⟩

theorem decode_extension_iff (raw k : Bytes) (child : Digest) :
    decode raw = .ok (extension k child) ↔
      ∃ compact, Compact.OfBare false k compact ∧ IsEncodingOf [compact, child.bytes] raw := by
  rw [decode_ok_iff_items]
  constructor
  · rintro ⟨items, hraw, hitems⟩
    obtain ⟨compact, hcompact, rfl⟩ := (ofItems_extension_iff items k child).mp hitems
    exact ⟨compact, hcompact, hraw⟩
  · rintro ⟨compact, hcompact, hraw⟩
    exact ⟨_, hraw, (ofItems_extension_iff _ k child).mpr ⟨compact, hcompact, rfl⟩⟩

theorem decode_branch_iff (raw : Bytes) (found : List (Option Digest)) :
    decode raw = .ok (branch found) ↔
      found.length = slotCount ∧ IsEncodingOf (found.map slotBytes) raw := by
  rw [decode_ok_iff_items]
  constructor
  · rintro ⟨items, hraw, hitems⟩
    obtain ⟨hcount, rfl⟩ := (ofItems_branch_iff items found).mp hitems
    exact ⟨hcount, hraw⟩
  · rintro ⟨hcount, hraw⟩
    exact ⟨_, hraw, (ofItems_branch_iff _ found).mpr ⟨hcount, rfl⟩⟩

/-! ### Branches are small -/

theorem length_encode_slotBytes (s : Option Digest) :
    (Rlp.encode (.bytes (slotBytes s))).length ≤ 33 := by
  cases s with
  | none => decide
  | some d =>
      have hsize := d.size_eq
      have hwrapped : Rlp.isWrapped d.bytes = false := by
        refine Bool.eq_false_iff.mpr (fun h => ?_)
        have := Rlp.length_of_wrapped h
        omega
      show (Rlp.encodeBytes d.bytes).length ≤ 33
      rw [Rlp.encodeBytes_of_not_wrapped hwrapped, List.length_append, hsize]
      decide

theorem length_encodeAll_slotBytes (found : List (Option Digest)) :
    (Rlp.encodeAll ((found.map slotBytes).map Rlp.Item.bytes)).length ≤ 33 * found.length := by
  induction found with
  | nil => exact Nat.le_refl 0
  | cons s rest ih =>
      have hs := length_encode_slotBytes s
      rw [List.map_cons, List.map_cons, Rlp.encodeAll, List.length_append, List.length_cons]
      omega

/-- Every branch has an encoding. -/
theorem exists_encoding_of_branch {found : List (Option Digest)}
    (hcount : found.length = slotCount) :
    ∃ raw, IsEncodingOf (found.map slotBytes) raw := by
  have hlength := length_encodeAll_slotBytes found
  rw [hcount] at hlength
  exact ⟨_, Nat.lt_of_le_of_lt hlength (by decide), rfl⟩

/-! ### Two entries of one content -/

/-- Entries of which the paths are split alike stand for the same. -/
theorem decode_congr {compact compact' second raw raw' : Bytes}
    (hsplit : Compact.split compact = Compact.split compact')
    (hraw : IsEncodingOf [compact, second] raw) (hraw' : IsEncodingOf [compact', second] raw') :
    decode raw = decode raw' := by
  rw [decode_of_list hraw, decode_of_list hraw', ofItems_pair, ofItems_pair, hsplit]

end Content

theorem ParityTwins.decode_eq {raw raw' : Bytes} (h : ParityTwins raw raw') :
    Content.decode raw = Content.decode raw' := by
  obtain ⟨isLeaf, x, rest, second, hx, hraw, hraw'⟩ := h
  have heven := (@Compact.OfBare.even isLeaf (x :: rest)).split
  have hodd := (@Compact.OfBare.odd isLeaf x rest hx).split
  exact Content.decode_congr (heven.trans hodd.symm) hraw hraw'

/-- Two encodings with one bare path are the same or twins. -/
theorem eq_or_twins {isLeaf : Bool} {k second raw raw' : Bytes}
    (h : ∃ compact, Compact.OfBare isLeaf k compact ∧ IsEncodingOf [compact, second] raw)
    (h' : ∃ compact, Compact.OfBare isLeaf k compact ∧ IsEncodingOf [compact, second] raw') :
    raw' = raw ∨ ParityTwins raw raw' ∨ ParityTwins raw' raw := by
  obtain ⟨compact, hcompact, hraw⟩ := h
  obtain ⟨compact', hcompact', hraw'⟩ := h'
  cases hcompact with
  | even =>
      cases hcompact' with
      | even => exact Or.inl (hraw'.raw_unique hraw)
      | odd rest hx => exact Or.inr (Or.inl ⟨isLeaf, _, rest, second, hx, hraw, hraw'⟩)
  | odd rest hx =>
      cases hcompact' with
      | even => exact Or.inr (Or.inr ⟨isLeaf, _, rest, second, hx, hraw', hraw⟩)
      | odd => exact Or.inl (hraw'.raw_unique hraw)

namespace Content

/-- The entries that decode to the content of a given one are this entry and its twin. -/
theorem decode_ok_iff_twins {raw : Bytes} {c : Content Digest} (h : decode raw = .ok c)
    (raw' : Bytes) :
    decode raw' = .ok c ↔ raw' = raw ∨ ParityTwins raw raw' ∨ ParityTwins raw' raw := by
  constructor
  · intro h'
    cases c with
    | leaf k v =>
        exact eq_or_twins ((decode_leaf_iff raw k v).mp h) ((decode_leaf_iff raw' k v).mp h')
    | extension k child =>
        exact eq_or_twins ((decode_extension_iff raw k child).mp h)
          ((decode_extension_iff raw' k child).mp h')
    | branch found =>
        have hraw := ((decode_branch_iff raw found).mp h).2
        have hraw' := ((decode_branch_iff raw' found).mp h').2
        exact Or.inl (hraw'.raw_unique hraw)
  · rintro (rfl | htwins | htwins)
    · exact h
    · rw [← htwins.decode_eq, h]
    · rw [htwins.decode_eq, h]

/-! ## Entries over nodes -/

theorem decodeNodes_fresh_iff (raw : Bytes) (hashesKeys : Bool) (c : Content Digest) :
    decodeNodes raw hashesKeys = .ok (c.fresh hashesKeys) ↔ decode raw = .ok c := by
  constructor
  · intro h
    obtain ⟨c', hdecode, hfresh⟩ := map_ok _ _ _ h
    have hdigests := congrArg (map Node.digest) hfresh
    rw [Node.digest_fresh, Node.digest_fresh] at hdigests
    rw [hdecode, hdigests]
  · intro h
    rw [decodeNodes, h]
    rfl

end Content

/-- The encodings of a leaf: one with an even path and, if its bare path starts with a zero nibble,
one with an odd path. -/
def EncodesLeaf (k v raw : Bytes) : Prop :=
  IsEncodingOf [0x20 :: k, v] raw ∨
    ∃ x rest, k = x :: rest ∧ x < 16 ∧ IsEncodingOf [(0x30 + x) :: rest, v] raw

/-- The encodings of an extension. -/
def EncodesExtension (k : Bytes) (child : Digest) (raw : Bytes) : Prop :=
  IsEncodingOf [0x00 :: k, child.bytes] raw ∨
    ∃ x rest, k = x :: rest ∧ x < 16 ∧ IsEncodingOf [(0x10 + x) :: rest, child.bytes] raw

namespace Content

theorem decode_leaf_iff_encodes (raw k v : Bytes) :
    decode raw = .ok (leaf k v) ↔ EncodesLeaf k v raw :=
  (decode_leaf_iff raw k v).trans
    (Compact.exists_ofBare_iff true k (fun compact => IsEncodingOf [compact, v] raw))

theorem decode_extension_iff_encodes (raw k : Bytes) (child : Digest) :
    decode raw = .ok (extension k child) ↔ EncodesExtension k child raw :=
  (decode_extension_iff raw k child).trans
    (Compact.exists_ofBare_iff false k (fun compact => IsEncodingOf [compact, child.bytes] raw))

end Content

/-- A proof of one entry, a leaf, is accepted if the entry is an encoding of the claim. -/
theorem checkProof_single_leaf_iff (root : Digest) (key value entry : Bytes) (mode : KeyMode) :
    ((∃ n, (checkProof root.bytes key value [entry] mode).result = .ok n) ∧
        ∃ k v, Content.decode entry = .ok (.leaf k v)) ↔
      EncodesLeaf (if mode.keyIsRaw ∧ mode.hashesKeys then (keccak256 key).bytes else key) value
          entry ∧
        keccak256 entry = root := by
  rw [checkProof_ok_iff, HashChain.singleton_iff, ← Content.decode_leaf_iff_encodes]
  constructor
  · rintro ⟨⟨h, _⟩ | ⟨c, hopen, hagree⟩, k, v, hleaf⟩
    · cases h
    · obtain ⟨hroot, hc⟩ := openEntry_eq_ok.mp hopen
      obtain rfl := Except.ok.inj (hc.symm.trans hleaf)
      obtain ⟨rfl, rfl⟩ := (Content.agree_ok_iff _ _ _).mp hagree k v rfl
      exact ⟨hleaf, hroot⟩
  · rintro ⟨hleaf, hroot⟩
    refine ⟨Or.inr ⟨_, openEntry_eq_ok.mpr ⟨hroot, hleaf⟩, ?_⟩, _, _, hleaf⟩
    rw [Content.agree_ok_iff]
    rintro k v h
    cases h
    exact ⟨rfl, rfl⟩

/-- **A content has its encodings up to a parity.** The entries that decode to a leaf or to an
extension are its encoding with an even path and, exactly if its bare path starts with a byte below
16, the one with an odd path; every branch has exactly one. So an entry is determined by its content
but for the parity of such a path. A proof of one entry, a leaf, is accepted exactly if the entry is
an encoding of the claimed key and value, and hashes to the root. -/
theorem encodings_up_to_parity (hashesKeys : Bool) :
    (∀ raw k v, Content.decodeNodes raw hashesKeys = .ok (.leaf k v) ↔ EncodesLeaf k v raw) ∧
    (∀ raw k child,
      Content.decodeNodes raw hashesKeys = .ok (.extension k (Node.unknown hashesKeys child)) ↔
        EncodesExtension k child raw) ∧
    (∀ found : List (Option Digest), found.length = slotCount →
      ∃! raw, Content.decodeNodes raw hashesKeys =
        .ok (.branch (found.map (Option.map (Node.unknown hashesKeys))))) ∧
    (∀ raw raw' c, Content.decodeNodes raw hashesKeys = .ok c →
      (Content.decodeNodes raw' hashesKeys = .ok c ↔
        raw' = raw ∨ ParityTwins raw raw' ∨ ParityTwins raw' raw)) ∧
    ∀ (root : Digest) (key value entry : Bytes) (mode : KeyMode),
      ((∃ n, (checkProof root.bytes key value [entry] mode).result = .ok n) ∧
          ∃ k v, Content.decodeNodes entry mode.hashesKeys = .ok (.leaf k v)) ↔
        EncodesLeaf (if mode.keyIsRaw ∧ mode.hashesKeys then (keccak256 key).bytes else key) value
            entry ∧
          keccak256 entry = root := by
  refine ⟨fun raw k v => ?_, fun raw k child => ?_, fun found hcount => ?_, ?_, ?_⟩
  · exact (Content.decodeNodes_fresh_iff raw hashesKeys (.leaf k v)).trans
      (Content.decode_leaf_iff_encodes raw k v)
  · exact (Content.decodeNodes_fresh_iff raw hashesKeys (.extension k child)).trans
      (Content.decode_extension_iff_encodes raw k child)
  · obtain ⟨raw, hraw⟩ := Content.exists_encoding_of_branch hcount
    have hiff (other : Bytes) : Content.decodeNodes other hashesKeys =
        .ok (.branch (found.map (Option.map (Node.unknown hashesKeys)))) ↔
          found.length = slotCount ∧ IsEncodingOf (found.map slotBytes) other :=
      (Content.decodeNodes_fresh_iff other hashesKeys (.branch found)).trans
        (Content.decode_branch_iff other found)
    exact ⟨raw, (hiff raw).mpr ⟨hcount, hraw⟩,
      fun other hother => ((hiff other).mp hother).2.raw_unique hraw⟩
  · intro raw raw' c h
    obtain ⟨c', hdecode, rfl⟩ := Content.map_ok _ _ _ h
    exact (Content.decodeNodes_fresh_iff raw' hashesKeys c').trans
      (Content.decode_ok_iff_twins hdecode raw')
  · intro root key value entry mode
    have hleaf (k v : Bytes) := Content.decodeNodes_fresh_iff entry mode.hashesKeys (.leaf k v)
    exact (and_congr_right' (exists_congr fun k => exists_congr fun v => hleaf k v)).trans
      (checkProof_single_leaf_iff root key value entry mode)

/-- The leaf with the bare path `01 2f` and the value `9` has two encodings, of which the second has
the odd path `1 2 f`. Each of them is accepted under its own hash. -/
theorem encodings_up_to_parity_odd_leaf :
    let even : Bytes := [0xc5, 0x83, 0x20, 0x01, 0x2f, 0x09]
    let odd : Bytes := [0xc4, 0x82, 0x31, 0x2f, 0x09]
    Content.decodeNodes even true = .ok (.leaf [0x01, 0x2f] [9]) ∧
      Content.decodeNodes odd true = .ok (.leaf [0x01, 0x2f] [9]) ∧ even ≠ odd ∧
      (∃ n, (checkProof (keccak256 odd).bytes [0x01, 0x2f] [9] [odd] {}).result = .ok n) ∧
      (List.replicate 17 (none : Option Digest)).length = slotCount ∧
      ∃! raw, Content.decodeNodes raw true = .ok (.branch (List.replicate 17 none)) := by
  intro even odd
  obtain ⟨hleaf, _, hbranch, htwins, hsingle⟩ := encodings_up_to_parity true
  have heven : IsEncodingOf [[0x20, 0x01, 0x2f], [9]] even := ⟨by decide, by decide⟩
  have hodd : IsEncodingOf [[0x31, 0x2f], [9]] odd := ⟨by decide, by decide⟩
  have hraw : Content.decodeNodes even true = .ok (.leaf [0x01, 0x2f] [9]) :=
    (hleaf even _ _).mpr (Or.inl heven)
  have hraw' : Content.decodeNodes odd true = .ok (.leaf [0x01, 0x2f] [9]) :=
    (htwins even odd _ hraw).mpr
      (Or.inr (Or.inl ⟨true, 0x01, [0x2f], [9], by decide, heven, hodd⟩))
  have hencodes : EncodesLeaf [0x01, 0x2f] [9] odd := (hleaf odd _ _).mp hraw'
  have haccepted := ((hsingle (keccak256 odd) [0x01, 0x2f] [9] odd {}).mpr ⟨hencodes, rfl⟩).1
  exact ⟨hraw, hraw', by decide, haccepted, rfl, hbranch (List.replicate 17 none) rfl⟩

end Patricia
