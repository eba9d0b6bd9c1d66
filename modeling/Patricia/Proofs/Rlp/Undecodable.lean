import Patricia.Proofs.Rlp.Canonical

/-
  The byte strings that are turned away.

  A head tells where its item ends, before anybody looks at the payload; a byte string whose own
  head ends it exactly is `Framed`. No framed byte string is the start of another one
  (`Framed.append_inj`), so a payload is cut into framed parts in at most one way (`flatten_inj`).

  `Undecodable` lists what can be wrong, from the outside in: a byte string that is not framed, a
  byte that is wrapped though it stands for itself, a list whose payload cannot be cut, and a list
  of any number of parts of which one is undecodable itself. `decode_eq_none_iff` says that this is
  all: exactly these byte strings encode no item. So a fault in the depth of a list is a fault of
  the whole, whatever stands beside it.
-/

namespace Patricia.Rlp

/-- A payload behind its head. -/
def frame (base : Nat) (payload : Bytes) : Bytes := head base payload.length ++ payload

/-- One byte that stands for itself, or the payload of a byte string or of a list behind its head.
The payload of a list may be anything. -/
inductive Framed : Bytes → Prop
  | byte {b : UInt8} (hb : b.toNat < 128) : Framed [b]
  | string {payload : Bytes} (hsize : payload.length < 2 ^ 64) : Framed (frame 128 payload)
  | list {payload : Bytes} (hsize : payload.length < 2 ^ 64) : Framed (frame 192 payload)

/-- The byte strings with a fault, at any depth. -/
inductive Undecodable : Bytes → Prop
  /-- The head is missing or not in its shortest form, or bytes are missing or left over. -/
  | unframed {raw : Bytes} (h : ¬ Framed raw) : Undecodable raw
  /-- A single byte below 128 stands behind a head. -/
  | wrapped {b : UInt8} (hb : b.toNat < 128) : Undecodable [0x81, b]
  /-- The payload of a list is not made of whole parts. -/
  | uncut {payload : Bytes} (hsize : payload.length < 2 ^ 64)
    (h : ∀ parts : List Bytes, (∀ part ∈ parts, Framed part) → parts.flatten ≠ payload) :
    Undecodable (frame 192 payload)
  /-- One part of a list is undecodable. -/
  | part {parts : List Bytes} (hparts : ∀ part ∈ parts, Framed part)
    (hsize : parts.flatten.length < 2 ^ 64) {part : Bytes} (hmem : part ∈ parts)
    (h : Undecodable part) : Undecodable (frame 192 parts.flatten)

theorem singleton_lt (b : UInt8) : [b].length < 2 ^ 64 := by
  rw [List.length_singleton]
  decide

/-! ## Cutting -/

/-- Takes the first framed byte string off. -/
def cut : Bytes → Option (Bytes × Bytes)
  | [] => none
  | first :: b =>
    if first.toNat < 128 then some ([first], b)
    else
      let base := if first.toNat < 192 then 128 else 192
      (readPayload (first.toNat - base) b).map fun (payload, rest) => (frame base payload, rest)

/-- Behind the head of a kind, the whole frame is cut off. -/
theorem cut_frame {base : Nat} (hbase : base = 128 ∨ base = 192) {payload : Bytes}
    (hsize : payload.length < 2 ^ 64) (rest : Bytes) :
    cut (frame base payload ++ rest) = some (frame base payload, rest) := by
  obtain ⟨first, b, heq, hle, hlt, hread⟩ := readPayload_head base (by omega) hsize rest
  have hlarge : ¬ first.toNat < 128 := by omega
  have hkind : (if first.toNat < 192 then 128 else 192) = base := by
    split <;> omega
  have hframe : frame base payload ++ rest = first :: b := by
    rw [frame, List.append_assoc, heq]
  rw [hframe, cut, if_neg hlarge]
  simp only [hkind, hread, Option.map_some]

theorem Framed.cut_append {p : Bytes} (h : Framed p) (rest : Bytes) :
    cut (p ++ rest) = some (p, rest) := by
  cases h with
  | byte hb => exact if_pos hb
  | string hsize => exact cut_frame (Or.inl rfl) hsize rest
  | list hsize => exact cut_frame (Or.inr rfl) hsize rest

/-- No framed byte string is the start of another one. -/
theorem Framed.append_inj {p q rest rest' : Bytes} (hp : Framed p) (hq : Framed q)
    (h : p ++ rest = q ++ rest') : p = q ∧ rest = rest' := by
  have hcut := hp.cut_append rest
  rw [h, hq.cut_append rest'] at hcut
  exact ⟨(congrArg Prod.fst (Option.some.inj hcut)).symm,
    (congrArg Prod.snd (Option.some.inj hcut)).symm⟩

theorem not_framed_nil : ¬ Framed [] := by
  intro h
  cases h.cut_append []

/-- A byte string is cut into framed parts in at most one way. -/
theorem flatten_inj {parts others : List Bytes} (hparts : ∀ part ∈ parts, Framed part)
    (hothers : ∀ part ∈ others, Framed part) (h : parts.flatten = others.flatten) :
    parts = others := by
  induction parts generalizing others with
  | nil =>
      cases others with
      | nil => rfl
      | cons q others =>
          obtain ⟨hq, _⟩ := List.forall_mem_cons.mp hothers
          exact absurd ((List.append_eq_nil_iff.mp h.symm).1 ▸ hq) not_framed_nil
  | cons p parts ih =>
      obtain ⟨hp, hrest⟩ := List.forall_mem_cons.mp hparts
      cases others with
      | nil => exact absurd ((List.append_eq_nil_iff.mp h).1 ▸ hp) not_framed_nil
      | cons q others =>
          obtain ⟨hq, hrest'⟩ := List.forall_mem_cons.mp hothers
          obtain ⟨rfl, hflat⟩ := hp.append_inj hq h
          exact congrArg (p :: ·) (ih hrest hrest' hflat)

theorem frame_ne_byte {base : Nat} (hbase : base = 128 ∨ base = 192) {payload : Bytes}
    (hsize : payload.length < 2 ^ 64) {b : UInt8} (hb : b.toNat < 128) :
    frame base payload ≠ [b] := by
  obtain ⟨first, rest, heq, hle, _⟩ := readPayload_head base (by omega) hsize []
  rw [List.append_nil] at heq
  intro h
  obtain ⟨rfl, _⟩ := List.cons.inj (heq.symm.trans h)
  omega

/-- The head tells kind and payload. -/
theorem frame_inj {base base' : Nat} (hbase : base = 128 ∨ base = 192)
    (hbase' : base' = 128 ∨ base' = 192) {payload payload' : Bytes}
    (hsize : payload.length < 2 ^ 64) (hsize' : payload'.length < 2 ^ 64)
    (h : frame base payload = frame base' payload') : base = base' ∧ payload = payload' := by
  obtain ⟨first, b, heq, hle, hlt, hread⟩ := readPayload_head base (by omega) hsize []
  obtain ⟨first', b', heq', hle', hlt', hread'⟩ := readPayload_head base' (by omega) hsize' []
  rw [List.append_nil] at heq heq'
  obtain ⟨rfl, rfl⟩ := List.cons.inj (heq.symm.trans (h.trans heq'))
  obtain rfl : base = base' := by omega
  rw [hread] at hread'
  exact ⟨rfl, congrArg Prod.fst (Option.some.inj hread')⟩

/-! ## Encodings are framed -/

theorem encodeAll_eq_flatten (items : List Item) :
    encodeAll items = (items.map encode).flatten := by
  induction items with
  | nil => rfl
  | cons item rest ih => rw [encodeAll, ih, List.map_cons, List.flatten_cons]

theorem framed_encode {item : Item} (hsize : item.payload.length < 2 ^ 64) :
    Framed (encode item) := by
  cases item with
  | list items => exact .list hsize
  | bytes content =>
      rw [encode]
      cases hw : isWrapped content with
      | false =>
          rw [encodeBytes_of_not_wrapped hw]
          exact .string hsize
      | true =>
          obtain ⟨b, rfl⟩ := List.length_eq_one_iff.mp (length_of_wrapped hw)
          rw [encodeBytes_of_wrapped hw]
          exact .byte (of_decide_eq_true hw)

theorem IsEncoding.framed {item : Item} {raw : Bytes} (h : IsEncoding item raw) : Framed raw :=
  h.2 ▸ framed_encode h.1

theorem IsEncoding.of_mem {item : Item} {items : List Item} {raw : Bytes}
    (h : IsEncoding (.list items) raw) (hmem : item ∈ items) : IsEncoding item (encode item) :=
  ⟨payload_lt_of_mem hmem h.1, rfl⟩

/-- A payload behind its head encodes the byte string it is, if that is not wrapped, or the list of
the items it encodes. -/
theorem IsEncoding.frame_cases {base : Nat} (hbase : base = 128 ∨ base = 192) {payload : Bytes}
    (hsize : payload.length < 2 ^ 64) {item : Item} (h : IsEncoding item (frame base payload)) :
    (base = 128 ∧ item = .bytes payload ∧ isWrapped payload = false) ∨
      (base = 192 ∧ ∃ items, item = .list items ∧ encodeAll items = payload) := by
  obtain ⟨hfit, heq⟩ := h
  cases item with
  | list items =>
      obtain ⟨rfl, rfl⟩ := frame_inj hbase (Or.inr rfl) hsize hfit heq
      exact Or.inr ⟨rfl, items, rfl, rfl⟩
  | bytes content =>
      rw [encode] at heq
      cases hw : isWrapped content with
      | false =>
          rw [encodeBytes_of_not_wrapped hw] at heq
          obtain ⟨rfl, rfl⟩ := frame_inj hbase (Or.inl rfl) hsize hfit heq
          exact Or.inl ⟨rfl, rfl, hw⟩
      | true =>
          obtain ⟨b, rfl⟩ := List.length_eq_one_iff.mp (length_of_wrapped hw)
          rw [encodeBytes_of_wrapped hw] at heq
          exact absurd heq (frame_ne_byte hbase hsize (of_decide_eq_true hw))

theorem IsEncoding.of_list_frame {payload : Bytes} (hsize : payload.length < 2 ^ 64) {item : Item}
    (h : IsEncoding item (frame 192 payload)) :
    ∃ items, item = .list items ∧ (items.map encode).flatten = payload ∧
      ∀ part ∈ items.map encode, Framed part := by
  obtain ⟨hkind, _⟩ | ⟨_, items, rfl, rfl⟩ := h.frame_cases (Or.inr rfl) hsize
  · cases hkind
  · refine ⟨items, rfl, (encodeAll_eq_flatten items).symm, fun part hpart => ?_⟩
    obtain ⟨item, hitem, rfl⟩ := List.mem_map.mp hpart
    exact framed_encode (payload_lt_of_mem hitem hsize)

/-! ## Reading -/

/-- What has a fault encodes no item. -/
theorem Undecodable.not_encoding {raw : Bytes} (h : Undecodable raw) :
    ∀ item, ¬ IsEncoding item raw := by
  induction h with
  | unframed h => exact fun item hitem => h hitem.framed
  | @wrapped b hb =>
      intro item hitem
      have hitem : IsEncoding item (frame 128 [b]) := hitem
      obtain ⟨_, _, hw⟩ | ⟨hkind, _⟩ := hitem.frame_cases (Or.inl rfl) (singleton_lt b)
      · exact Bool.false_ne_true (hw.symm.trans (decide_eq_true hb))
      · cases hkind
  | uncut hsize h =>
      intro item hitem
      obtain ⟨items, _, hflat, hparts⟩ := hitem.of_list_frame hsize
      exact h _ hparts hflat
  | @part parts hparts hsize part hmem _ ih =>
      intro item hitem
      obtain ⟨items, rfl, hflat, hframed⟩ := hitem.of_list_frame hsize
      obtain rfl := flatten_inj hframed hparts hflat
      obtain ⟨inner, hinner, rfl⟩ := List.mem_map.mp hmem
      exact ih inner (hitem.of_mem hinner)

/-- A sequence of encodings. -/
theorem exists_items_of_parts (parts : List Bytes)
    (h : ∀ part ∈ parts, ∃ item, IsEncoding item part) :
    ∃ items, encodeAll items = parts.flatten := by
  induction parts with
  | nil => exact ⟨[], rfl⟩
  | cons part parts ih =>
      obtain ⟨⟨item, hitem⟩, hrest⟩ := List.forall_mem_cons.mp h
      obtain ⟨items, hitems⟩ := ih hrest
      exact ⟨item :: items, by rw [encodeAll, hitems, List.flatten_cons, hitem.2]⟩

/-- What encodes no item has a fault. The induction is on the length: a part of a list is shorter
than the list. -/
theorem undecodable_of_not_encoding (raw : Bytes) (h : ∀ item, ¬ IsEncoding item raw) :
    Undecodable raw := by
  induction hn : raw.length using Nat.strongRecOn generalizing raw with
  | ind n ih =>
    by_cases hframed : Framed raw
    · cases hframed with
      | @byte b hb =>
          have hw : isWrapped [b] = true := decide_eq_true hb
          exact absurd ⟨singleton_lt b, (encodeBytes_of_wrapped hw).symm⟩ (h (.bytes [b]))
      | @string payload hsize =>
          cases hw : isWrapped payload with
          | true =>
              obtain ⟨b, rfl⟩ := List.length_eq_one_iff.mp (length_of_wrapped hw)
              exact .wrapped (of_decide_eq_true hw)
          | false =>
              exact absurd ⟨hsize, (encodeBytes_of_not_wrapped hw).symm⟩ (h (.bytes payload))
      | @list payload hsize =>
          by_cases hcut : ∃ parts : List Bytes, (∀ part ∈ parts, Framed part) ∧
              parts.flatten = payload
          · obtain ⟨parts, hparts, rfl⟩ := hcut
            by_cases hall : ∀ part ∈ parts, ∃ item, IsEncoding item part
            · obtain ⟨items, hitems⟩ := exists_items_of_parts parts hall
              refine absurd ⟨?_, ?_⟩ (h (.list items))
              · rw [Item.payload, hitems]
                exact hsize
              · rw [encode, hitems]
                rfl
            · push Not at hall
              obtain ⟨part, hmem, hpart⟩ := hall
              have hle := (List.sublist_flatten_of_mem hmem).length_le
              have hlt : part.length < n := by
                rw [← hn, frame, head_eq_cons, List.cons_append, List.length_cons,
                  List.length_append]
                omega
              exact .part hparts hsize hmem (ih part.length hlt part hpart rfl)
          · exact .uncut hsize (fun parts hparts hflat => hcut ⟨parts, hparts, hflat⟩)
    · exact .unframed hframed

/-- **Exactly the byte strings with a fault encode no item.** -/
theorem decode_eq_none_iff (raw : Bytes) : decode raw = none ↔ Undecodable raw := by
  rw [Option.eq_none_iff_forall_ne_some]
  simp only [ne_eq, decode_eq_some_iff]
  exact ⟨undecodable_of_not_encoding raw, Undecodable.not_encoding⟩

end Patricia.Rlp
