import Patricia.Proofs.Node.Decode
import Patricia.Proofs.Rlp.Canonical

/-
  Which byte strings encode a node.

  `Form` is the grammar of nodes: a path with a value, a path with a reference, or seventeen slots.
  `Form.Encodes` says that a byte string is the canonical encoding of a form, with its path in
  compact form, and `Form.content` is the content that the form stands for, with its path in bare
  form. `decodeNodes_ok_iff_form`: the entries that decode are exactly the encodings of forms, each
  of exactly one, and decoding gives the content of that form.

  Two different forms may have one content, as bare paths do not tell `0 1` from `1`; so the form is
  what an entry determines, not what its content does.
-/

namespace Patricia

/-- What a node is written from. The child of an extension is a digest by its type. -/
inductive Form
  | leaf (nibbles value : Bytes)
  | extension (nibbles : Bytes) (child : Digest)
  | branch (slots : List Bytes)

namespace Form

/-- Paths consist of nibbles; a branch has seventeen slots, each empty or with a reference of 32
bytes. -/
def WellFormed : Form → Prop
  | leaf nibbles _ => Nibbles.InRange nibbles
  | extension nibbles _ => Nibbles.InRange nibbles
  | branch slots => slots.length = slotCount ∧ ∀ b ∈ slots, b.length = 0 ∨ b.length = 32

/-- The byte strings that stand in the encoding, in order. -/
def fields : Form → Except Fault (List Bytes)
  | leaf nibbles value => (Compact.encode nibbles true).map (fun path => [path, value])
  | extension nibbles child => (Compact.encode nibbles false).map (fun path => [path, child.bytes])
  | branch slots => .ok slots

/-- The content that a form stands for: the path in bare form, and no child in an empty slot. -/
def content : Form → Except Fault (Content Digest)
  | leaf nibbles value => (Nibbles.toBytes nibbles).map (fun path => .leaf path value)
  | extension nibbles child => (Nibbles.toBytes nibbles).map (fun path => .extension path child)
  | branch slots => .ok (.branch (slots.map Digest.ofBytes?))

/-- A list of items is what a form is written as. -/
def Writes (form : Form) (items : List Rlp.Item) : Prop :=
  form.WellFormed ∧ ∃ parts, form.fields = .ok parts ∧ items = parts.map Rlp.Item.bytes

/-- A byte string is the canonical encoding of a form. -/
def Encodes (form : Form) (raw : Bytes) : Prop :=
  ∃ items, form.Writes items ∧ Rlp.IsEncoding (.list items) raw

end Form

namespace Content

/-! ## What decodes -/

theorem expectBytes_ok_iff (place : Place) (item : Rlp.Item) (b : Bytes) :
    expectBytes place item = .ok b ↔ item = .bytes b := by
  cases item with
  | bytes content => simp [expectBytes]
  | list items => simp [expectBytes]

theorem reference_ok_iff (b : Bytes) (d : Digest) : reference b = .ok d ↔ b = d.bytes := by
  rw [← Digest.ofBytes?_eq_some]
  unfold reference
  cases Digest.ofBytes? b with
  | none => simp
  | some d' => simp

theorem slot_ok_iff (i : Nat) (item : Rlp.Item) (s : Option Digest) :
    slot i item = .ok s ↔
      ∃ b, item = .bytes b ∧ (b.length = 0 ∨ b.length = 32) ∧ s = Digest.ofBytes? b := by
  cases item with
  | list items => simp [slot, expectBytes]
  | bytes b =>
      cases b with
      | nil => simp [slot, expectBytes, Digest.ofBytes?, eq_comm]
      | cons x rest =>
          have hslot : slot i (.bytes (x :: rest)) = (reference (x :: rest)).map some := rfl
          rw [hslot]
          constructor
          · intro h
            obtain ⟨d, hd, rfl⟩ := map_ok _ _ _ h
            rw [reference_ok_iff] at hd
            rw [hd]
            exact ⟨d.bytes, rfl, Or.inr d.size_eq, (Digest.ofBytes?_bytes d).symm⟩
          · rintro ⟨b, hb, hlen, rfl⟩
            cases hb
            have hlen : (x :: rest).length = 32 := hlen.resolve_left (List.cons_ne_nil x rest ∘
              List.length_eq_zero_iff.mp)
            rw [(reference_ok_iff (x :: rest) ⟨x :: rest, hlen⟩).mpr rfl, Digest.ofBytes?,
              dif_pos hlen]
            rfl

theorem slots_ok_iff (items : List Rlp.Item) (i : Nat) (found : List (Option Digest)) :
    slots i items = .ok found ↔
      ∃ bs : List Bytes, items = bs.map Rlp.Item.bytes ∧
        (∀ b ∈ bs, b.length = 0 ∨ b.length = 32) ∧ found = bs.map Digest.ofBytes? := by
  induction items generalizing i found with
  | nil =>
      constructor
      · intro h
        cases h
        exact ⟨[], rfl, List.forall_mem_nil _, rfl⟩
      · rintro ⟨bs, hbs, _, rfl⟩
        rw [List.map_eq_nil_iff.mp hbs.symm]
        rfl
  | cons item rest ih =>
      constructor
      · intro h
        simp only [slots] at h
        split at h
        · cases h
        · next s hs =>
            obtain ⟨others, hothers, rfl⟩ := map_ok _ _ _ h
            obtain ⟨b, rfl, hb, rfl⟩ := (slot_ok_iff _ _ _).mp hs
            obtain ⟨bs, rfl, hbs, rfl⟩ := (ih _ _).mp hothers
            exact ⟨b :: bs, rfl, List.forall_mem_cons.mpr ⟨hb, hbs⟩, rfl⟩
      · rintro ⟨bs, hbs, hlen, rfl⟩
        obtain ⟨b, others, rfl, rfl, rfl⟩ := List.map_eq_cons_iff.mp hbs.symm
        obtain ⟨hb, hothers⟩ := List.forall_mem_cons.mp hlen
        have hslot := (slot_ok_iff i (.bytes b) _).mpr ⟨b, rfl, hb, rfl⟩
        have hrest := (ih (i + 1) (others.map Digest.ofBytes?)).mpr ⟨others, rfl, hothers, rfl⟩
        simp only [slots, hslot, hrest]
        rfl

theorem ofPair_ok_iff (first second : Rlp.Item) (c : Content Digest) :
    ofPair first second = .ok c ↔
      ∃ compact key b path, first = .bytes compact ∧ second = .bytes b ∧
        Key.ofCompact compact = .ok key ∧ key.bare = .ok path ∧
        (if key.isLeaf then .ok (leaf path b) else (reference b).map (extension path)) = .ok c := by
  constructor
  · intro h
    unfold ofPair at h
    split at h
    · cases h
    · next compact hfirst =>
        split at h
        · cases h
        · next key hkey =>
            split at h
            · cases h
            · next b hsecond =>
                split at h
                · cases h
                · next path hpath =>
                    exact ⟨compact, key, b, path, (expectBytes_ok_iff _ _ _).mp hfirst,
                      (expectBytes_ok_iff _ _ _).mp hsecond, hkey, hpath, h⟩
  · rintro ⟨compact, key, b, path, rfl, rfl, hkey, hpath, h⟩
    simp only [ofPair, expectBytes, hkey, hpath]
    exact h

theorem ofItems_of_length {items : List Rlp.Item} (h : items.length = slotCount) :
    ofItems items = (slots 0 items).map branch := by
  unfold ofItems
  split
  · cases h
  · rw [if_pos h]

/-! ## Lists that decode -/

theorem decode_of_list {raw : Bytes} {items : List Rlp.Item}
    (h : Rlp.IsEncoding (.list items) raw) : decode raw = ofItems items := by
  rw [decode, (Rlp.decode_eq_some_iff _ _).mpr h]

theorem decode_ok_iff_items (raw : Bytes) (c : Content Digest) :
    decode raw = .ok c ↔ ∃ items, Rlp.IsEncoding (.list items) raw ∧ ofItems items = .ok c := by
  constructor
  · intro h
    unfold decode at h
    split at h
    · cases h
    · cases h
    · next items hitems => exact ⟨items, (Rlp.decode_eq_some_iff _ _).mp hitems, h⟩
  · rintro ⟨items, hitems, h⟩
    rw [decode_of_list hitems, h]

end Content

namespace Form

/-! ## Forms and lists of items -/

/-- A path is written in front of the other byte string, in the compact form that reads as it. -/
theorem exists_compact_of_pair {nibbles second : Bytes} {isLeaf : Bool} {parts : List Bytes}
    (hrange : Nibbles.InRange nibbles)
    (h : (Compact.encode nibbles isLeaf).map (fun path => [path, second]) = .ok parts) :
    ∃ compact, parts = [compact, second] ∧ Key.ofCompact compact = .ok ⟨nibbles, isLeaf⟩ := by
  obtain ⟨compact, hcompact, hdecode⟩ := Compact.decode_encode nibbles isLeaf hrange
  rw [hcompact] at h
  exact ⟨compact, (Except.ok.inj h).symm, hdecode⟩

theorem Writes.leaf {nibbles value : Bytes} {items : List Rlp.Item}
    (h : (Form.leaf nibbles value).Writes items) :
    ∃ compact, items = [.bytes compact, .bytes value] ∧
      Key.ofCompact compact = .ok ⟨nibbles, true⟩ := by
  obtain ⟨hrange, parts, hparts, rfl⟩ := h
  obtain ⟨compact, rfl, hkey⟩ := exists_compact_of_pair hrange hparts
  exact ⟨compact, rfl, hkey⟩

theorem Writes.extension {nibbles : Bytes} {child : Digest} {items : List Rlp.Item}
    (h : (Form.extension nibbles child).Writes items) :
    ∃ compact, items = [.bytes compact, .bytes child.bytes] ∧
      Key.ofCompact compact = .ok ⟨nibbles, false⟩ := by
  obtain ⟨hrange, parts, hparts, rfl⟩ := h
  obtain ⟨compact, rfl, hkey⟩ := exists_compact_of_pair hrange hparts
  exact ⟨compact, rfl, hkey⟩

theorem Writes.branch {slots : List Bytes} {items : List Rlp.Item}
    (h : (Form.branch slots).Writes items) : items = slots.map Rlp.Item.bytes := by
  obtain ⟨_, parts, hparts, rfl⟩ := h
  cases hparts
  rfl

theorem Writes.length_branch {slots : List Bytes} {items : List Rlp.Item}
    (h : (Form.branch slots).Writes items) : items.length = slotCount := by
  rw [h.branch, List.length_map, h.1.1]

/-- What a form is written as decodes to its content. -/
theorem Writes.ofItems {form : Form} {items : List Rlp.Item} (h : form.Writes items) :
    ∃ c, form.content = .ok c ∧ Content.ofItems items = .ok c := by
  cases form with
  | leaf nibbles value =>
      obtain ⟨compact, rfl, hkey⟩ := h.leaf
      obtain ⟨path, hpath⟩ := Nibbles.toBytes_isOk nibbles h.1
      refine ⟨.leaf path value, by rw [content, hpath]; rfl, ?_⟩
      exact (Content.ofPair_ok_iff _ _ _).mpr ⟨compact, _, value, path, rfl, rfl, hkey, hpath, rfl⟩
  | extension nibbles child =>
      obtain ⟨compact, rfl, hkey⟩ := h.extension
      obtain ⟨path, hpath⟩ := Nibbles.toBytes_isOk nibbles h.1
      refine ⟨.extension path child, by rw [content, hpath]; rfl, ?_⟩
      refine (Content.ofPair_ok_iff _ _ _).mpr
        ⟨compact, _, child.bytes, path, rfl, rfl, hkey, hpath, ?_⟩
      rw [(Content.reference_ok_iff child.bytes child).mpr rfl]
      rfl
  | branch slots =>
      obtain rfl := h.branch
      obtain ⟨⟨hcount, hlen⟩, _⟩ := h
      refine ⟨_, rfl, ?_⟩
      rw [Content.ofItems_of_length (by rw [List.length_map, hcount]),
        (Content.slots_ok_iff _ 0 _).mpr ⟨slots, rfl, hlen, rfl⟩]
      rfl

/-- A list of items that decodes is what some form is written as. -/
theorem exists_writes {items : List Rlp.Item} {c : Content Digest}
    (h : Content.ofItems items = .ok c) : ∃ form : Form, form.Writes items := by
  unfold Content.ofItems at h
  split at h
  · next first second =>
      obtain ⟨compact, key, b, path, rfl, rfl, hkey, hpath, h⟩ := (Content.ofPair_ok_iff _ _ _).mp h
      have hrange := Key.inRange_ofCompact compact key hkey
      have hcompact := Compact.encode_of_decode hkey
      split at h
      · next hleaf =>
          rw [hleaf] at hcompact
          refine ⟨.leaf key.nibbles b, hrange, [compact, b], ?_, rfl⟩
          rw [fields, hcompact]
          rfl
      · next hleaf =>
          rw [Bool.eq_false_iff.mpr hleaf] at hcompact
          obtain ⟨d, hd, _⟩ := Content.map_ok _ _ _ h
          obtain rfl := (Content.reference_ok_iff b d).mp hd
          refine ⟨.extension key.nibbles d, hrange, [compact, d.bytes], ?_, rfl⟩
          rw [fields, hcompact]
          rfl
  · split at h
    · next hcount =>
        obtain ⟨found, hfound, _⟩ := Content.map_ok _ _ _ h
        obtain ⟨bs, rfl, hlen, _⟩ := (Content.slots_ok_iff _ _ _).mp hfound
        exact ⟨.branch bs, ⟨by rwa [List.length_map] at hcount, hlen⟩, bs, rfl, rfl⟩
    · cases h

/-- A list of items is written from one form: the flag of the path tells leaves from extensions, and
the number of items tells both from branches. -/
theorem Writes.unique {form other : Form} {items : List Rlp.Item} (h : form.Writes items)
    (hother : other.Writes items) : form = other := by
  cases form with
  | leaf nibbles value =>
      obtain ⟨compact, rfl, hkey⟩ := h.leaf
      cases other with
      | leaf nibbles' value' =>
          obtain ⟨_, heq, hkey'⟩ := hother.leaf
          cases heq
          rw [hkey] at hkey'
          cases hkey'
          rfl
      | extension nibbles' child =>
          obtain ⟨_, heq, hkey'⟩ := hother.extension
          cases heq
          rw [hkey] at hkey'
          cases hkey'
      | branch slots => cases hother.length_branch
  | extension nibbles child =>
      obtain ⟨compact, rfl, hkey⟩ := h.extension
      cases other with
      | leaf nibbles' value =>
          obtain ⟨_, heq, hkey'⟩ := hother.leaf
          cases heq
          rw [hkey] at hkey'
          cases hkey'
      | extension nibbles' child' =>
          obtain ⟨_, heq, hkey'⟩ := hother.extension
          simp only [List.cons.injEq, Rlp.Item.bytes.injEq] at heq
          obtain ⟨rfl, hchild, _⟩ := heq
          rw [hkey] at hkey'
          cases hkey'
          rw [Digest.eq_of_bytes_eq hchild]
      | branch slots => cases hother.length_branch
  | branch slots =>
      cases other with
      | leaf nibbles value =>
          obtain ⟨_, rfl, _⟩ := hother.leaf
          cases h.length_branch
      | extension nibbles child =>
          obtain ⟨_, rfl, _⟩ := hother.extension
          cases h.length_branch
      | branch slots' =>
          have heq := h.branch.symm.trans hother.branch
          have hinj : Function.Injective Rlp.Item.bytes := fun _ _ hb => Rlp.Item.bytes.inj hb
          rw [List.map_injective_iff.mpr hinj heq]

/-! ## Forms and byte strings -/

theorem Encodes.unique {form other : Form} {raw : Bytes} (h : form.Encodes raw)
    (hother : other.Encodes raw) : form = other := by
  obtain ⟨items, hwrites, hencoding⟩ := h
  obtain ⟨items', hwrites', hencoding'⟩ := hother
  obtain rfl := Rlp.Item.list.inj (hencoding.unique hencoding')
  exact hwrites.unique hwrites'

/-- The encoding of a form decodes to its content. -/
theorem Encodes.decode {form : Form} {raw : Bytes} (h : form.Encodes raw) :
    ∃ c, form.content = .ok c ∧ Content.decode raw = .ok c := by
  obtain ⟨items, hwrites, hencoding⟩ := h
  obtain ⟨c, hcontent, hitems⟩ := hwrites.ofItems
  refine ⟨c, hcontent, ?_⟩
  rw [Content.decode_of_list hencoding, hitems]

/-- Bytes that decode are the encoding of a form. -/
theorem exists_encodes {raw : Bytes} {c : Content Digest} (h : Content.decode raw = .ok c) :
    ∃ form : Form, form.Encodes raw := by
  obtain ⟨items, hencoding, hitems⟩ := (Content.decode_ok_iff_items raw c).mp h
  obtain ⟨form, hwrites⟩ := exists_writes hitems
  exact ⟨form, items, hwrites, hencoding⟩

end Form

/-- **An entry decodes exactly if it is the canonical encoding of one node.** The entries that
decode are those that encode a form, and then exactly one; what they decode to is the content of
that form, over children of the given mode of which nothing is known. -/
theorem Content.decodeNodes_ok_iff_form (raw : Bytes) (hashesKeys : Bool) :
    ((∃ c, Content.decodeNodes raw hashesKeys = .ok c) ↔ ∃! form : Form, form.Encodes raw) ∧
      ∀ form : Form, form.Encodes raw →
        ∃ c, form.content = .ok c ∧
          Content.decodeNodes raw hashesKeys = .ok (c.fresh hashesKeys) := by
  have hvalue : ∀ form : Form, form.Encodes raw → ∃ c, form.content = .ok c ∧
      Content.decodeNodes raw hashesKeys = .ok (c.fresh hashesKeys) := by
    intro form hform
    obtain ⟨c, hcontent, hdecode⟩ := hform.decode
    exact ⟨c, hcontent, by rw [Content.decodeNodes, hdecode]; rfl⟩
  refine ⟨⟨?_, ?_⟩, hvalue⟩
  · rintro ⟨c, h⟩
    obtain ⟨c', hdecode, _⟩ := Content.map_ok _ _ _ h
    obtain ⟨form, hform⟩ := Form.exists_encodes hdecode
    exact ⟨form, hform, fun other hother => hother.unique hform⟩
  · rintro ⟨form, hform, _⟩
    obtain ⟨c, _, h⟩ := hvalue form hform
    exact ⟨_, h⟩

/-- The leaf with the odd path `1 2 f` has the bare path `01 2f`. -/
theorem Content.decodeNodes_ok_iff_form_odd_leaf :
    (Form.leaf [1, 2, 15] [9]).Encodes [0xc4, 0x82, 0x31, 0x2f, 0x09] ∧
      (∃! form : Form, form.Encodes [0xc4, 0x82, 0x31, 0x2f, 0x09]) ∧
      Content.decodeNodes [0xc4, 0x82, 0x31, 0x2f, 0x09] true = .ok (.leaf [0x01, 0x2f] [9]) := by
  have hrange : Nibbles.InRange [1, 2, 15] := by simp [Nibbles.InRange]
  have hform : (Form.leaf [1, 2, 15] [9]).Encodes [0xc4, 0x82, 0x31, 0x2f, 0x09] :=
    ⟨[.bytes [0x31, 0x2f], .bytes [9]], ⟨hrange, [[0x31, 0x2f], [9]], rfl, rfl⟩,
      by decide, by decide⟩
  obtain ⟨hiff, hvalue⟩ := Content.decodeNodes_ok_iff_form [0xc4, 0x82, 0x31, 0x2f, 0x09] true
  obtain ⟨c, hcontent, hdecode⟩ := hvalue _ hform
  cases hcontent
  exact ⟨hform, hiff.mp ⟨_, hdecode⟩, hdecode⟩

end Patricia
