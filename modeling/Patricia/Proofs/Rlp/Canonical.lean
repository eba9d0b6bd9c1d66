import Patricia.Proofs.Rlp.Size

/-
  Reading accepts exactly the canonical encodings.

  `IsEncoding item raw` says that `raw` is what `encode` writes for an item whose sizes the format
  can hold. `decode_eq_some_iff` says that an item is read from exactly the byte string that encodes
  it; so an item has one encoding, a byte string encodes at most one item, and every other byte
  string (cut short, too long, with a size or a byte written the long way) is turned away.

  Both directions are about sequences, as reading is: the payload of a list is a sequence, and so
  is what is left behind an item. The induction is on the bound of the depth, which the number of
  bytes never exceeds.
-/

namespace Patricia.Rlp

/-- The bytes that stand behind the head of an item. -/
def Item.payload : Item → Bytes
  | .bytes content => content
  | .list items => encodeAll items

/-- `raw` is the encoding of an item. A size takes at most eight bytes, so larger items have none;
the items of a list are no larger than the list. -/
def IsEncoding (item : Item) (raw : Bytes) : Prop :=
  item.payload.length < 2 ^ 64 ∧ raw = encode item

/-! ## One item -/

theorem encodeBytes_of_wrapped {content : Bytes} (h : isWrapped content = true) :
    encodeBytes content = content := by
  unfold isWrapped at h
  split at h
  · exact if_pos (of_decide_eq_true h)
  · cases h

theorem encodeBytes_of_not_wrapped {content : Bytes} (h : isWrapped content = false) :
    encodeBytes content = head 128 content.length ++ content := by
  unfold encodeBytes
  split
  · exact if_neg (of_decide_eq_false h)
  · rfl

theorem length_of_wrapped {content : Bytes} (h : isWrapped content = true) :
    content.length = 1 := by
  unfold isWrapped at h
  split at h
  · rfl
  · cases h

theorem encodeAll_singleton (item : Item) : encodeAll [item] = encode item := by
  rw [encodeAll, encodeAll, List.append_nil]

theorem length_encodeAll_lt (items : List Item) :
    (encodeAll items).length < (encode (.list items)).length := by
  rw [encode, head_eq_cons, List.cons_append, List.length_cons, List.length_append]
  omega

theorem length_encode_pos (item : Item) : 0 < (encode item).length := by
  cases item with
  | bytes content =>
      rw [encode]
      cases hw : isWrapped content with
      | true =>
          rw [encodeBytes_of_wrapped hw, length_of_wrapped hw]
          decide
      | false =>
          rw [encodeBytes_of_not_wrapped hw, head_eq_cons, List.cons_append, List.length_cons]
          omega
  | list items => exact Nat.zero_lt_of_lt (length_encodeAll_lt items)

theorem payload_length_le (item : Item) : item.payload.length ≤ (encode item).length := by
  cases item with
  | bytes content =>
      show content.length ≤ (encodeBytes content).length
      cases hw : isWrapped content with
      | true => exact Nat.le_of_eq (congrArg List.length (encodeBytes_of_wrapped hw)).symm
      | false =>
          rw [encodeBytes_of_not_wrapped hw, List.length_append]
          omega
  | list items => exact Nat.le_of_lt (length_encodeAll_lt items)

theorem length_encode_le_of_mem {item : Item} {items : List Item} (h : item ∈ items) :
    (encode item).length ≤ (encodeAll items).length := by
  induction items with
  | nil => cases h
  | cons other rest ih =>
      rw [encodeAll, List.length_append]
      rcases List.mem_cons.mp h with rfl | hrest
      · omega
      · have := ih hrest
        omega

/-- The items of a list fit if the list does. -/
theorem payload_lt_of_mem {item : Item} {items : List Item} (h : item ∈ items) {n : Nat}
    (hn : (encodeAll items).length < n) : item.payload.length < n := by
  have := payload_length_le item
  have := length_encode_le_of_mem h
  omega

/-! ## Heads -/

/-- What is read behind a first byte of a kind has the head of that kind in front. -/
theorem cons_eq_head_append {base : Nat} {first : UInt8} (hbase : base ≤ first.toNat)
    (hlt : first.toNat < base + 64) {b payload rest : Bytes}
    (h : readPayload (first.toNat - base) b = some (payload, rest)) :
    payload.length < 2 ^ 64 ∧ base + headOffset payload.length = first.toNat ∧
      first :: b = head base payload.length ++ (payload ++ rest) := by
  obtain ⟨hoffset, rfl⟩ := (readPayload_eq_some_iff _ _ _ _).mp h
  have hfirst : base + headOffset payload.length = first.toNat := by omega
  refine ⟨(headOffset_lt_iff _).mp (by omega), hfirst, ?_⟩
  rw [head_eq_cons, hfirst, UInt8.ofNat_toNat, List.cons_append]

/-- Behind the first byte of a head, the payload is read. -/
theorem readPayload_head (base : Nat) (hbase : base + 64 ≤ 256) {payload : Bytes}
    (hsize : payload.length < 2 ^ 64) (rest : Bytes) :
    ∃ first b, head base payload.length ++ (payload ++ rest) = first :: b ∧
      base ≤ first.toNat ∧ first.toNat < base + 64 ∧
      readPayload (first.toNat - base) b = some (payload, rest) := by
  have hoffset := (headOffset_lt_iff payload.length).mpr hsize
  have hfirst : (UInt8.ofNat (base + headOffset payload.length)).toNat =
      base + headOffset payload.length := by
    rw [UInt8.toNat_ofNat']
    omega
  refine ⟨UInt8.ofNat (base + headOffset payload.length),
    headRest payload.length ++ (payload ++ rest), ?_, ?_, ?_, ?_⟩
  · rw [head_eq_cons, List.cons_append]
  · omega
  · omega
  · rw [hfirst, readPayload_eq_some_iff]
    exact ⟨by omega, rfl⟩

/-! ## Sequences -/

/-- The ways in which a sequence goes on that can be read: with a byte that stands for itself, with
a byte string, or with a list. -/
theorem items_cons_cases {fuel : Nat} {first : UInt8} {b : Bytes} {found : List Item}
    (h : items (fuel + 1) (first :: b) = some found) :
    (first.toNat < 128 ∧
      ∃ others, items fuel b = some others ∧ found = .bytes [first] :: others) ∨
    (128 ≤ first.toNat ∧ first.toNat < 192 ∧ ∃ payload rest others,
      readPayload (first.toNat - 128) b = some (payload, rest) ∧
      ¬ (first.toNat = 129 ∧ isWrapped payload = true) ∧
      items fuel rest = some others ∧ found = .bytes payload :: others) ∨
    (192 ≤ first.toNat ∧ ∃ payload rest inner others,
      readPayload (first.toNat - 192) b = some (payload, rest) ∧
      items fuel payload = some inner ∧ items fuel rest = some others ∧
      found = .list inner :: others) := by
  simp only [items] at h
  split at h
  · next hsmall =>
      obtain ⟨others, hothers, rfl⟩ := Option.map_eq_some_iff.mp h
      exact Or.inl ⟨hsmall, others, hothers, rfl⟩
  · next hlarge =>
      split at h
      · next hbytes =>
          split at h
          · cases h
          · next payload rest hread =>
              split at h
              · cases h
              · next hwrapped =>
                  obtain ⟨others, hothers, rfl⟩ := Option.map_eq_some_iff.mp h
                  exact Or.inr (Or.inl ⟨Nat.not_lt.mp hlarge, hbytes, payload, rest, others, hread,
                    hwrapped, hothers, rfl⟩)
      · next hlist =>
          split at h
          · cases h
          · next payload rest hread =>
              split at h
              · cases h
              · next inner hinner =>
                  obtain ⟨others, hothers, rfl⟩ := Option.map_eq_some_iff.mp h
                  exact Or.inr (Or.inr ⟨Nat.not_lt.mp hlist, payload, rest, inner, others, hread,
                    hinner, hothers, rfl⟩)

theorem eq_encodeAll_of_items (fuel : Nat) (b : Bytes) (found : List Item)
    (h : items fuel b = some found) :
    b = encodeAll found ∧ ∀ item ∈ found, item.payload.length < 2 ^ 64 := by
  induction fuel generalizing b found with
  | zero =>
      cases b with
      | nil =>
          cases h
          exact ⟨rfl, List.forall_mem_nil _⟩
      | cons first b => cases h
  | succ fuel ih =>
      cases b with
      | nil =>
          cases h
          exact ⟨rfl, List.forall_mem_nil _⟩
      | cons first b =>
          rcases items_cons_cases h with ⟨hsmall, others, hothers, rfl⟩ |
            ⟨hbytes, hlt, payload, rest, others, hread, hwrapped, hothers, rfl⟩ |
            ⟨hlist, payload, rest, inner, others, hread, hinner, hothers, rfl⟩
          · obtain ⟨rfl, hfit⟩ := ih _ _ hothers
            refine ⟨?_, List.forall_mem_cons.mpr ⟨?_, hfit⟩⟩
            · have hwrapped : isWrapped [first] = true := decide_eq_true hsmall
              rw [encodeAll, encode, encodeBytes_of_wrapped hwrapped]
              rfl
            · show 1 < 2 ^ 64
              decide
          · obtain ⟨hsize, hfirst, heq⟩ := cons_eq_head_append hbytes hlt hread
            obtain ⟨rfl, hfit⟩ := ih _ _ hothers
            have hno : isWrapped payload = false := by
              -- The head of a single byte is 129, and behind it no such byte is read.
              refine Bool.eq_false_iff.mpr (fun hw => hwrapped ⟨?_, hw⟩)
              rw [← hfirst, length_of_wrapped hw]
              rfl
            refine ⟨?_, List.forall_mem_cons.mpr ⟨hsize, hfit⟩⟩
            rw [heq, encodeAll, encode, encodeBytes_of_not_wrapped hno, List.append_assoc]
          · have hlt : first.toNat < 192 + 64 := first.toNat_lt
            obtain ⟨hsize, _, heq⟩ := cons_eq_head_append hlist hlt hread
            obtain ⟨rfl, hfit⟩ := ih _ _ hothers
            obtain ⟨rfl, _⟩ := ih _ _ hinner
            refine ⟨?_, List.forall_mem_cons.mpr ⟨hsize, hfit⟩⟩
            rw [heq, encodeAll, encode, List.append_assoc]

/-- A sequence that starts with the encoding of an item is read, if what follows is, and the items
of a list are. -/
theorem items_encode_append {fuel : Nat} (item : Item) (hsize : item.payload.length < 2 ^ 64)
    (hinner : ∀ inner, item = .list inner → items fuel (encodeAll inner) = some inner)
    {rest : Bytes} {others : List Item} (hrest : items fuel rest = some others) :
    items (fuel + 1) (encode item ++ rest) = some (item :: others) := by
  cases item with
  | bytes content =>
      rw [encode]
      cases hw : isWrapped content with
      | true =>
          obtain ⟨x, rfl⟩ := List.length_eq_one_iff.mp (length_of_wrapped hw)
          have hx : x.toNat < 128 := of_decide_eq_true hw
          rw [encodeBytes_of_wrapped hw, List.singleton_append]
          simp only [items, if_pos hx, hrest, Option.map_some]
      | false =>
          obtain ⟨first, b, heq, hbase, hlt, hread⟩ :=
            readPayload_head 128 (by decide) hsize rest
          simp only [Item.payload] at heq hread
          rw [encodeBytes_of_not_wrapped hw, List.append_assoc, heq]
          simp only [items, if_neg (Nat.not_lt.mpr hbase), if_pos hlt, hread, hw,
            Bool.false_eq_true, and_false, if_false, hrest, Option.map_some]
  | list inner =>
      obtain ⟨first, b, heq, hbase, hlt, hread⟩ :=
        readPayload_head 192 (by decide) hsize rest
      simp only [Item.payload] at heq hread
      have hlarge : ¬ first.toNat < 128 := by omega
      rw [encode, List.append_assoc, heq]
      simp only [items, if_neg hlarge, if_neg (Nat.not_lt.mpr hbase), hread, hinner inner rfl,
        hrest, Option.map_some]

theorem items_encodeAll (fuel : Nat) (found : List Item) (hfuel : (encodeAll found).length ≤ fuel)
    (hfit : ∀ item ∈ found, item.payload.length < 2 ^ 64) :
    items fuel (encodeAll found) = some found := by
  induction fuel generalizing found with
  | zero =>
      cases found with
      | nil => rfl
      | cons item rest =>
          have hpos := length_encode_pos item
          rw [encodeAll, List.length_append] at hfuel
          omega
  | succ fuel ih =>
      cases found with
      | nil => rfl
      | cons item rest =>
          have hpos := length_encode_pos item
          rw [encodeAll, List.length_append] at hfuel
          obtain ⟨hsize, hrest⟩ := List.forall_mem_cons.mp hfit
          rw [encodeAll]
          -- An item takes at least one byte, and a list one more than its items: the bound lasts.
          refine items_encode_append item hsize ?_ (ih rest (by omega) hrest)
          rintro inner rfl
          have hshorter := length_encodeAll_lt inner
          exact ih inner (by omega) (fun other hother => payload_lt_of_mem hother hsize)

/-! ## Reading -/

/-- **Reading accepts exactly the canonical encodings.** -/
theorem decode_eq_some_iff (raw : Bytes) (item : Item) :
    decode raw = some item ↔ IsEncoding item raw := by
  constructor
  · intro h
    unfold decode at h
    split at h
    · next found hitems =>
        cases h
        obtain ⟨hraw, hfit⟩ := eq_encodeAll_of_items _ _ _ hitems
        exact ⟨hfit item (List.mem_singleton.mpr rfl), hraw.trans (encodeAll_singleton item)⟩
    · cases h
  · rintro ⟨hsize, rfl⟩
    have hitems := items_encodeAll (encode item).length [item]
      (Nat.le_of_eq (congrArg List.length (encodeAll_singleton item)))
      (fun other hother => List.mem_singleton.mp hother ▸ hsize)
    rw [encodeAll_singleton] at hitems
    simp only [decode, hitems]

/-- A byte string encodes at most one item. -/
theorem IsEncoding.unique {a b : Item} {raw : Bytes} (ha : IsEncoding a raw)
    (hb : IsEncoding b raw) : a = b := by
  rw [← decode_eq_some_iff] at ha hb
  rw [ha] at hb
  exact Option.some.inj hb

end Patricia.Rlp
