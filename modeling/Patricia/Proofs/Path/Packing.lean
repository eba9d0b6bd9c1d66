import Patricia.Proofs.Path.Bare

/-
  Two ways to pack a path.

  The bare form puts a zero in front of an odd number of values and packs them all in pairs; the
  compact form puts the first of them behind the flags and packs the others. Both pack the same
  pairs, those counted from the end (`PairFromEnd`), and refuse the same ones. They differ in what
  they do with a first value that has no partner: the bare form takes it as it is, up to 255, while
  the compact form adds the flags to it, which leaves less room.

  The values need not be nibbles: nothing below bounds them, and what overflows is told.

  For compact forms that are read, the values are nibbles, and dropping the flags of the first byte
  is the bare form (`split_of_decode`).
-/

namespace Patricia

namespace Nibbles

/-- `a` and `b` are a pair of the values, counted from the end: the number of values behind them is
even. -/
def PairFromEnd (nibbles : Bytes) (a b : UInt8) : Prop :=
  ∃ front back, nibbles = front ++ a :: b :: back ∧ back.length % 2 = 0

/-- Some pair does not pack into a byte. -/
def Overflows (nibbles : Bytes) : Prop :=
  ∃ a b, PairFromEnd nibbles a b ∧ 255 < 16 * a.toNat + b.toNat

theorem byte_of_le {n : Nat} (h : n ≤ 255) : byte n = .ok (UInt8.ofNat n) :=
  if_pos (Nat.lt_succ_of_le h)

theorem byte_of_lt {n : Nat} (h : 255 < n) : byte n = .error .byteRange :=
  if_neg (Nat.not_lt.mpr h)

/-! ## Pairs -/

theorem pairFromEnd_cons_cons {a b x y : UInt8} {rest : Bytes} (heven : rest.length % 2 = 0) :
    PairFromEnd (x :: y :: rest) a b ↔ (a = x ∧ b = y) ∨ PairFromEnd rest a b := by
  constructor
  · rintro ⟨front, back, hsplit, hback⟩
    -- What stands in front of a pair is of even length too, so it cannot be one value.
    match front with
    | [] =>
        obtain ⟨rfl, rfl, _⟩ : x = a ∧ y = b ∧ rest = back := by simpa using hsplit
        exact Or.inl ⟨rfl, rfl⟩
    | [_] =>
        obtain ⟨_, _, rfl⟩ : x = _ ∧ y = a ∧ rest = b :: back := by simpa using hsplit
        rw [List.length_cons] at heven
        omega
    | _ :: _ :: front =>
        obtain ⟨_, _, hrest⟩ : x = _ ∧ y = _ ∧ rest = front ++ a :: b :: back := by
          simpa using hsplit
        exact Or.inr ⟨front, back, hrest, hback⟩
  · rintro (⟨rfl, rfl⟩ | ⟨front, back, rfl, hback⟩)
    · exact ⟨[], rest, rfl, heven⟩
    · exact ⟨x :: y :: front, back, rfl, hback⟩

theorem overflows_cons_cons {x y : UInt8} {rest : Bytes} (heven : rest.length % 2 = 0) :
    Overflows (x :: y :: rest) ↔ 255 < 16 * x.toNat + y.toNat ∨ Overflows rest := by
  unfold Overflows
  constructor
  · rintro ⟨a, b, hpair, hlt⟩
    obtain ⟨rfl, rfl⟩ | hrest := (pairFromEnd_cons_cons heven).mp hpair
    · exact Or.inl hlt
    · exact Or.inr ⟨a, b, hrest, hlt⟩
  · rintro (hlt | ⟨a, b, hrest, hlt⟩)
    · exact ⟨x, y, (pairFromEnd_cons_cons heven).mpr (Or.inl ⟨rfl, rfl⟩), hlt⟩
    · exact ⟨a, b, (pairFromEnd_cons_cons heven).mpr (Or.inr hrest), hlt⟩

theorem not_overflows_nil : ¬ Overflows [] := by
  rintro ⟨a, b, ⟨front, back, hsplit, _⟩, _⟩
  simp at hsplit

/-- A first value without a partner is in no pair. -/
theorem overflows_cons {x : UInt8} {rest : Bytes} (heven : rest.length % 2 = 0) :
    Overflows (x :: rest) ↔ Overflows rest := by
  unfold Overflows
  constructor
  · rintro ⟨a, b, ⟨front, back, hsplit, hback⟩, hlt⟩
    cases front with
    | nil =>
        obtain ⟨_, rfl⟩ : x = a ∧ rest = b :: back := by simpa using hsplit
        rw [List.length_cons] at heven
        omega
    | cons _ front =>
        obtain ⟨_, hrest⟩ : x = _ ∧ rest = front ++ a :: b :: back := by simpa using hsplit
        exact ⟨a, b, ⟨front, back, hrest, hback⟩, hlt⟩
  · rintro ⟨a, b, ⟨front, back, rfl, hback⟩, hlt⟩
    exact ⟨a, b, ⟨x :: front, back, rfl, hback⟩, hlt⟩

/-! ## Packing -/

/-- Pairs are packed, or one of them overflows. -/
theorem packPairs_cases : ∀ nibbles : Bytes, nibbles.length % 2 = 0 →
    (Overflows nibbles ∧ packPairs nibbles = .error .byteRange) ∨
      (¬ Overflows nibbles ∧ ∃ b, packPairs nibbles = .ok b)
  | [], _ => Or.inr ⟨not_overflows_nil, [], rfl⟩
  | [_], h => by simp at h
  | x :: y :: rest, h => by
      have heven : rest.length % 2 = 0 := by
        simp only [List.length_cons] at h
        omega
      rw [overflows_cons_cons heven]
      by_cases hlt : 255 < 16 * x.toNat + y.toNat
      · refine Or.inl ⟨Or.inl hlt, ?_⟩
        simp only [packPairs, byte_of_lt hlt]
      · have hbyte := byte_of_le (Nat.not_lt.mp hlt)
        obtain ⟨hover, hpack⟩ | ⟨hfits, b, hpack⟩ := packPairs_cases rest heven
        · refine Or.inl ⟨Or.inr hover, ?_⟩
          simp only [packPairs, hbyte, hpack]
          rfl
        · refine Or.inr ⟨not_or.mpr ⟨hlt, hfits⟩,
            UInt8.ofNat (16 * x.toNat + y.toNat) :: b, ?_⟩
          simp only [packPairs, hbyte, hpack]
          rfl

theorem toBytes_even {nibbles : Bytes} (heven : nibbles.length % 2 = 0) :
    toBytes nibbles = packPairs nibbles := by
  rw [toBytes, if_neg (by omega)]

/-- The first of an odd number of values stays as it is. -/
theorem toBytes_odd {x : UInt8} {rest : Bytes} (heven : rest.length % 2 = 0) :
    toBytes (x :: rest) = (packPairs rest).map (x :: ·) := by
  have hodd : (x :: rest).length % 2 = 1 := by
    rw [List.length_cons]
    omega
  have hx : 16 * (0 : UInt8).toNat + x.toNat = x.toNat := by
    rw [UInt8.toNat_zero]
    omega
  have hle : x.toNat ≤ 255 := Nat.le_of_lt_succ x.toNat_lt
  rw [toBytes, if_pos hodd]
  simp only [packPairs, hx, byte_of_le hle, UInt8.ofNat_toNat]

/-- Values have a bare form, or a pair of them overflows. -/
theorem toBytes_cases (nibbles : Bytes) :
    (Overflows nibbles ∧ toBytes nibbles = .error .byteRange) ∨
      (¬ Overflows nibbles ∧ ∃ b, toBytes nibbles = .ok b) := by
  obtain heven | hodd := Nat.mod_two_eq_zero_or_one nibbles.length
  · rw [toBytes_even heven]
    exact packPairs_cases nibbles heven
  · cases nibbles with
    | nil => cases hodd
    | cons x rest =>
        have heven : rest.length % 2 = 0 := by
          rw [List.length_cons] at hodd
          omega
        rw [toBytes_odd heven, overflows_cons heven]
        obtain ⟨hover, hpack⟩ | ⟨hfits, b, hpack⟩ := packPairs_cases rest heven
        · exact Or.inl ⟨hover, by rw [hpack]; rfl⟩
        · exact Or.inr ⟨hfits, x :: b, by rw [hpack]; rfl⟩

end Nibbles

namespace Compact

open Nibbles

/-! ## The compact form beside the bare form -/

/-- The flags of an odd path, in the place where they stand in a byte. -/
def oddFlags (isLeaf : Bool) : Nat := 16 * (2 * isLeaf.toNat + 1)

/-- An even path has its flags in a byte of their own. -/
theorem encode_eq_of_even {nibbles : Bytes} (isLeaf : Bool) (heven : nibbles.length % 2 = 0) :
    encode nibbles isLeaf =
      (toBytes nibbles).map (UInt8.ofNat (32 * isLeaf.toNat) :: ·) := by
  have hflag : 16 * flag isLeaf false = 32 * isLeaf.toNat := by
    show 16 * (2 * isLeaf.toNat + 0) = 32 * isLeaf.toNat
    omega
  have hle : 32 * isLeaf.toNat ≤ 255 := by
    cases isLeaf <;> decide
  rw [toBytes_even heven]
  simp only [encode, if_pos heven, hflag, byte_of_le hle]

/-- An odd path has its flags on top of the first value, if there is room. -/
theorem encode_eq_of_odd {x : UInt8} {rest : Bytes} (isLeaf : Bool)
    (heven : rest.length % 2 = 0) :
    encode (x :: rest) isLeaf =
      if 255 < oddFlags isLeaf + x.toNat then .error .byteRange
      else (packPairs rest).map (UInt8.ofNat (oddFlags isLeaf + x.toNat) :: ·) := by
  have hodd : ¬ (x :: rest).length % 2 = 0 := by
    rw [List.length_cons]
    omega
  have hflag : 16 * flag isLeaf true + x.toNat = oddFlags isLeaf + x.toNat := rfl
  simp only [encode, if_neg hodd, hflag]
  by_cases hlt : 255 < oddFlags isLeaf + x.toNat
  · rw [if_pos hlt]
    simp only [byte_of_lt hlt]
  · rw [if_neg hlt]
    simp only [byte_of_le (Nat.not_lt.mp hlt)]

theorem encode_odd_cases {x : UInt8} {rest : Bytes} (isLeaf : Bool)
    (heven : rest.length % 2 = 0) :
    ((toBytes (x :: rest) = .error .byteRange ∨ 255 < oddFlags isLeaf + x.toNat) ∧
        encode (x :: rest) isLeaf = .error .byteRange) ∨
      (oddFlags isLeaf + x.toNat ≤ 255 ∧ ∃ b, toBytes (x :: rest) = .ok (x :: b) ∧
        encode (x :: rest) isLeaf = .ok (UInt8.ofNat (oddFlags isLeaf + x.toNat) :: b)) := by
  rw [encode_eq_of_odd isLeaf heven, toBytes_odd heven]
  by_cases hlt : 255 < oddFlags isLeaf + x.toNat
  · rw [if_pos hlt]
    exact Or.inl ⟨Or.inr hlt, rfl⟩
  · rw [if_neg hlt]
    obtain ⟨_, hpack⟩ | ⟨_, b, hpack⟩ := packPairs_cases rest heven
    · rw [hpack]
      exact Or.inl ⟨Or.inl rfl, rfl⟩
    · rw [hpack]
      exact Or.inr ⟨Nat.not_lt.mp hlt, b, rfl, rfl⟩

/-! ## Compact forms that are read -/

/-- What is left of a compact form without its flags: of an odd path the low half of the first
byte, of an even one nothing of it. -/
def dropFlags (first : UInt8) (rest : Bytes) : Bytes :=
  if (first >>> 4) % 2 = 0 then rest else (first &&& 0x0f) :: rest

theorem dropFlags_of_odd {first : UInt8} (rest : Bytes) (hodd : first.toNat / 16 % 2 = 1) :
    dropFlags first rest = first % 16 :: rest := by
  have hne : ¬ (first >>> 4) % 2 = 0 := by
    rw [← UInt8.toNat_inj, UInt8.toNat_mod, toNat_shiftRight_four]
    show ¬ first.toNat / 16 % 2 = 0
    omega
  rw [dropFlags, if_neg hne, and_fifteen]

theorem dropFlags_of_even {first : UInt8} (rest : Bytes) (heven : first.toNat / 16 % 2 = 0) :
    dropFlags first rest = rest := by
  have hzero : (first >>> 4) % 2 = 0 := by
    rw [← UInt8.toNat_inj, UInt8.toNat_mod, toNat_shiftRight_four]
    exact heven
  rw [dropFlags, if_pos hzero]

theorem testBit_five {n : Nat} (h : n / 16 ≤ 3) : n.testBit 5 = decide (2 ≤ n / 16) := by
  rw [Nat.testBit_eq_decide_div_mod_eq, decide_eq_decide]
  omega

theorem split_of_decode {c : Bytes} {key : Key} (h : decode c = .ok key) :
    ∃ first rest, c = first :: rest ∧
      split c = .ok (dropFlags first rest, first.toNat.testBit 5) := by
  obtain ⟨first, rest, rfl, hle, ⟨hodd, rfl⟩ | ⟨heven, _, rfl⟩⟩ := decode_cases h
  · refine ⟨first, rest, rfl, ?_⟩
    rw [split_ok_iff_key, dropFlags_of_odd rest hodd, testBit_five hle]
    exact ⟨_, h, toBytes_cons_ofBytes (toNat_mod_lt first) rest, rfl⟩
  · refine ⟨first, rest, rfl, ?_⟩
    rw [split_ok_iff_key, dropFlags_of_even rest heven, testBit_five hle]
    exact ⟨_, h, toBytes_ofBytes rest, rfl⟩

theorem strip_eq_split (c : Bytes) : strip c = (split c).map Prod.fst := by
  unfold strip split
  cases Key.ofCompact c with
  | error f => rfl
  | ok key => cases hbare : key.bare <;> simp [hbare, Except.map]

/-- **The two ways to pack a path agree.** Values have a bare form unless some pair, counted from
the end, overflows. The compact form of an even number of values is the bare form behind the byte
of the flags; that of an odd number is the bare form with the flags added to its first byte, which
is the first value, and it is refused besides if they do not fit there. What is read as a compact
form is split into what is left of it without its flags, and bit 5 of its first byte. -/
theorem compact_is_bare_with_flags (nibbles : Bytes) (isLeaf : Bool) :
    ((toBytes nibbles = .error .byteRange ↔ Overflows nibbles) ∧
      (¬ Overflows nibbles → ∃ b, toBytes nibbles = .ok b)) ∧
    (nibbles.length % 2 = 0 →
      (encode nibbles isLeaf = .error .byteRange ↔ toBytes nibbles = .error .byteRange) ∧
      ∀ b, toBytes nibbles = .ok b →
        encode nibbles isLeaf = .ok (UInt8.ofNat (32 * isLeaf.toNat) :: b)) ∧
    (∀ x rest, nibbles = x :: rest → nibbles.length % 2 = 1 →
      (encode nibbles isLeaf = .error .byteRange ↔
        toBytes nibbles = .error .byteRange ∨ 255 < 16 * (2 * isLeaf.toNat + 1) + x.toNat) ∧
      ∀ b, toBytes nibbles = .ok b → 16 * (2 * isLeaf.toNat + 1) + x.toNat ≤ 255 →
        ∃ b', b = x :: b' ∧
          encode nibbles isLeaf = .ok (UInt8.ofNat (16 * (2 * isLeaf.toNat + 1) + x.toNat) :: b')) ∧
    ∀ c key, decode c = .ok key → ∃ first rest, c = first :: rest ∧
      strip c = .ok (dropFlags first rest) ∧
      split c = .ok (dropFlags first rest, first.toNat.testBit 5) := by
  refine ⟨?_, fun heven => ?_, ?_, fun c key h => ?_⟩
  · obtain ⟨hover, hbytes⟩ | ⟨hfits, b, hbytes⟩ := toBytes_cases nibbles
    · exact ⟨iff_of_true hbytes hover, fun hfits => absurd hover hfits⟩
    · rw [hbytes]
      exact ⟨iff_of_false (by simp) hfits, fun _ => ⟨b, rfl⟩⟩
  · rw [encode_eq_of_even isLeaf heven]
    cases toBytes nibbles with
    | error f => exact ⟨by simp [Except.map], fun b hb => by cases hb⟩
    | ok b => exact ⟨by simp [Except.map], fun b' hb => by cases hb; rfl⟩
  · rintro x rest rfl hodd
    have heven : rest.length % 2 = 0 := by
      rw [List.length_cons] at hodd
      omega
    obtain ⟨hfails, hencode⟩ | ⟨hroom, b, hbytes, hencode⟩ := encode_odd_cases isLeaf heven (x := x)
    · refine ⟨iff_of_true hencode hfails, fun b hb hroom => ?_⟩
      obtain hbytes | hlt := hfails
      · cases hbytes.symm.trans hb
      · exact absurd hroom (Nat.not_le.mpr hlt)
    · refine ⟨iff_of_false (by simp [hencode]) ?_, fun b' hb' _ => ⟨b, ?_, hencode⟩⟩
      · rintro (hbytes' | hlt)
        · cases hbytes.symm.trans hbytes'
        · exact absurd hroom (Nat.not_le.mpr hlt)
      · exact (Except.ok.inj (hbytes.symm.trans hb')).symm
  · obtain ⟨first, rest, hc, hsplit⟩ := split_of_decode h
    refine ⟨first, rest, hc, ?_, hsplit⟩
    rw [strip_eq_split, hsplit]
    rfl

/-- The value 240 alone has a bare form, but the flags of a leaf do not fit on top of it; behind
other values it is refused by both. The leaf with the odd path `1 2 f` loses its flags. -/
theorem compact_is_bare_with_flags_overflow :
    toBytes [0xf0] = .ok [0xf0] ∧ encode [0xf0] true = .error .byteRange ∧
      toBytes [1, 0xf0, 0] = .error .byteRange ∧
      strip [0x31, 0x2f] = .ok [0x01, 0x2f] ∧ split [0x31, 0x2f] = .ok ([0x01, 0x2f], true) := by
  obtain ⟨_, _, halone, hread⟩ := compact_is_bare_with_flags [0xf0] true
  obtain ⟨⟨hbare, _⟩, _⟩ := compact_is_bare_with_flags [1, 0xf0, 0] true
  have hover : Overflows [1, 0xf0, 0] := ⟨0xf0, 0, ⟨[1], [], rfl, rfl⟩, by decide⟩
  obtain ⟨first, rest, hc, hstrip, hsplit⟩ := hread [0x31, 0x2f] ⟨[1, 2, 15], true⟩ rfl
  obtain ⟨rfl, rfl⟩ : 0x31 = first ∧ [0x2f] = rest := by simpa using hc
  exact ⟨rfl, (halone 0xf0 [] rfl rfl).1.mpr (Or.inr (by decide)), hbare.mpr hover, hstrip, hsplit⟩

end Compact

end Patricia
