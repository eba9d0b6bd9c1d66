import Patricia.Path.Compact
import Patricia.Proofs.Path.Nibbles

/-
  The compact form is a codec.

  `IsCompact` says which byte strings are compact forms, by the bits of their first byte. On paths
  of nibbles writing and reading undo each other, with the terminator flag (`decode_encode`,
  `encode_of_decode`); exactly the compact forms are read (`decode_isOk_iff`), and everything else
  is a malformed encoding (`decode_fault`). `compact_codec` puts these together.

  The cases are those of the first byte: an odd path has its first nibble there, so its other
  nibbles fill bytes; an even one fills bytes from the second on.

  Nibbles that are read are in range, so a decoded key always has a bare form (`bare_ofCompact`): no
  byte string makes the decoding of a path fail for the range of a byte.
-/

namespace Patricia

namespace Compact

/-! ## The first byte -/

/-- A compact form: the flag nibble is at most 3, and if it is even, the nibble behind it is zero.
-/
def IsCompact : Bytes → Prop
  | [] => False
  | first :: _ => first >>> 4 ≤ 3 ∧ ((first >>> 4) % 2 = 0 → first &&& 0x0f = 0)

instance : DecidablePred IsCompact
  | [] => inferInstanceAs (Decidable False)
  | first :: _ =>
    inferInstanceAs (Decidable (first >>> 4 ≤ 3 ∧ ((first >>> 4) % 2 = 0 → first &&& 0x0f = 0)))

theorem toNat_shiftRight_four (x : UInt8) : (x >>> 4).toNat = x.toNat / 16 := by
  simp [Nat.shiftRight_eq_div_pow]

theorem and_fifteen (x : UInt8) : x &&& 0x0f = x % 16 := by
  rw [← UInt8.toNat_inj]
  simp [Nat.and_two_pow_sub_one_eq_mod _ 4]

/-- The two nibbles of a byte, by division. -/
theorem isCompact_cons_iff (first : UInt8) (rest : Bytes) :
    IsCompact (first :: rest) ↔
      first.toNat / 16 ≤ 3 ∧ (first.toNat / 16 % 2 = 0 → first % 16 = 0) := by
  show first >>> 4 ≤ 3 ∧ ((first >>> 4) % 2 = 0 → first &&& 0x0f = 0) ↔ _
  rw [UInt8.le_iff_toNat_le, ← UInt8.toNat_inj (a := (first >>> 4) % 2), UInt8.toNat_mod,
    toNat_shiftRight_four, and_fifteen]
  rfl

theorem decode_odd {first : UInt8} (rest : Bytes) (hle : first.toNat / 16 ≤ 3)
    (hodd : first.toNat / 16 % 2 = 1) :
    decode (first :: rest) =
      .ok ⟨first % 16 :: Nibbles.ofBytes rest, decide (2 ≤ first.toNat / 16)⟩ := by
  simp only [decode, if_neg (Nat.not_lt.mpr hle), if_pos hodd]

theorem decode_even {first : UInt8} (rest : Bytes) (hle : first.toNat / 16 ≤ 3)
    (heven : first.toNat / 16 % 2 = 0) (hzero : first % 16 = 0) :
    decode (first :: rest) = .ok ⟨Nibbles.ofBytes rest, decide (2 ≤ first.toNat / 16)⟩ := by
  have hodd : first.toNat / 16 % 2 ≠ 1 := by omega
  simp only [decode, if_neg (Nat.not_lt.mpr hle), if_neg hodd, if_pos hzero]

/-! ## Writing, then reading -/

theorem flag_le (isLeaf isOdd : Bool) : flag isLeaf isOdd ≤ 3 := by
  cases isLeaf <;> cases isOdd <;> decide

theorem flag_mod (isLeaf isOdd : Bool) : flag isLeaf isOdd % 2 = isOdd.toNat := by
  cases isLeaf <;> cases isOdd <;> rfl

theorem two_le_flag (isLeaf isOdd : Bool) : decide (2 ≤ flag isLeaf isOdd) = isLeaf := by
  cases isLeaf <;> cases isOdd <;> rfl

theorem encode_even {nibbles b : Bytes} (isLeaf : Bool) (heven : nibbles.length % 2 = 0)
    (hpack : Nibbles.packPairs nibbles = .ok b) :
    encode nibbles isLeaf = .ok (UInt8.ofNat (16 * flag isLeaf false) :: b) := by
  have hlt : 16 * flag isLeaf false < 256 := by
    have := flag_le isLeaf false
    omega
  simp only [encode, if_pos heven, Nibbles.byte, if_pos hlt, hpack]
  rfl

theorem encode_odd {x : UInt8} {rest b : Bytes} (isLeaf : Bool) (hx : x.toNat < 16)
    (heven : rest.length % 2 = 0) (hpack : Nibbles.packPairs rest = .ok b) :
    encode (x :: rest) isLeaf = .ok (UInt8.ofNat (16 * flag isLeaf true + x.toNat) :: b) := by
  have hodd : ¬ (x :: rest).length % 2 = 0 := by
    rw [List.length_cons]
    omega
  have hlt : 16 * flag isLeaf true + x.toNat < 256 := by
    have := flag_le isLeaf true
    omega
  simp only [encode, if_neg hodd, Nibbles.byte, if_pos hlt, hpack]
  rfl

/-- A first byte made of a flag nibble and another nibble. -/
theorem toNat_first (isLeaf isOdd : Bool) {n : Nat} (hn : n < 16) :
    (UInt8.ofNat (16 * flag isLeaf isOdd + n)).toNat / 16 = flag isLeaf isOdd := by
  have := flag_le isLeaf isOdd
  rw [Nibbles.toNat_join (by omega) hn]
  omega

theorem decode_encode (nibbles : Bytes) (isLeaf : Bool) (h : Nibbles.InRange nibbles) :
    ∃ c, encode nibbles isLeaf = .ok c ∧ decode c = .ok ⟨nibbles, isLeaf⟩ := by
  by_cases heven : nibbles.length % 2 = 0
  · -- The flags and a zero nibble make up the first byte.
    obtain ⟨b, hpack, hcut⟩ := Nibbles.ofBytes_packPairs nibbles h heven
    have hfirst := toNat_first isLeaf false (show 0 < 16 by decide)
    have hzero := Nibbles.join_mod (a := flag isLeaf false) (b := 0)
      (by have := flag_le isLeaf false; omega) (by decide)
    rw [Nat.add_zero] at hfirst hzero
    refine ⟨_, encode_even isLeaf heven hpack, ?_⟩
    rw [decode_even b (by rw [hfirst]; exact flag_le isLeaf false)
      (by rw [hfirst]; exact flag_mod isLeaf false) hzero, hfirst, two_le_flag, hcut]
  · -- The first nibble stands behind the flags, which leaves pairs.
    cases nibbles with
    | nil => exact absurd rfl heven
    | cons x rest =>
        obtain ⟨hx, hrest⟩ := Nibbles.inRange_cons.mp h
        have heven' : rest.length % 2 = 0 := by
          rw [List.length_cons] at heven
          omega
        obtain ⟨b, hpack, hcut⟩ := Nibbles.ofBytes_packPairs rest hrest heven'
        have hfirst := toNat_first isLeaf true hx
        have hnibble := Nibbles.join_mod (a := flag isLeaf true) (b := x.toNat)
          (by have := flag_le isLeaf true; omega) hx
        refine ⟨_, encode_odd isLeaf hx heven' hpack, ?_⟩
        rw [decode_odd b (by rw [hfirst]; exact flag_le isLeaf true)
          (by rw [hfirst]; exact flag_mod isLeaf true), hfirst, two_le_flag, hnibble, hcut,
          UInt8.ofNat_toNat]

/-! ## Reading, then writing -/

theorem flag_of_le : ∀ n ≤ 3, ∀ isOdd : Bool, n % 2 = isOdd.toNat →
    flag (decide (2 ≤ n)) isOdd = n := by
  decide

/-- What is read is cut out of the bytes, by the flags of the first one. -/
theorem decode_cases {c : Bytes} {k : Key} (h : decode c = .ok k) :
    ∃ first rest, c = first :: rest ∧ first.toNat / 16 ≤ 3 ∧
      ((first.toNat / 16 % 2 = 1 ∧
          k = ⟨first % 16 :: Nibbles.ofBytes rest, decide (2 ≤ first.toNat / 16)⟩) ∨
        (first.toNat / 16 % 2 = 0 ∧ first % 16 = 0 ∧
          k = ⟨Nibbles.ofBytes rest, decide (2 ≤ first.toNat / 16)⟩)) := by
  cases c with
  | nil => cases h
  | cons first rest =>
      refine ⟨first, rest, rfl, ?_⟩
      simp only [decode] at h
      split at h
      · cases h
      · next hle =>
          refine ⟨Nat.not_lt.mp hle, ?_⟩
          split at h
          · next hodd => exact Or.inl ⟨hodd, (Except.ok.inj h).symm⟩
          · next hodd =>
              split at h
              · next hzero => exact Or.inr ⟨by omega, hzero, (Except.ok.inj h).symm⟩
              · cases h

theorem encode_of_decode {c : Bytes} {k : Key} (h : decode c = .ok k) :
    encode k.nibbles k.isLeaf = .ok c := by
  obtain ⟨first, rest, rfl, hle, ⟨hodd, rfl⟩ | ⟨heven, hzero, rfl⟩⟩ := decode_cases h
  · have hnibble := Nibbles.toNat_mod_lt first
    have hlen : (Nibbles.ofBytes rest).length % 2 = 0 := by
      rw [Nibbles.length_ofBytes]
      omega
    have hjoin : UInt8.ofNat (16 * (first.toNat / 16) + (first % 16).toNat) = first :=
      Nibbles.join_halves first
    rw [encode_odd _ hnibble hlen (Nibbles.packPairs_ofBytes rest), flag_of_le _ hle true hodd,
      hjoin]
  · have hlen : (Nibbles.ofBytes rest).length % 2 = 0 := by
      rw [Nibbles.length_ofBytes]
      omega
    have hjoin : UInt8.ofNat (16 * (first.toNat / 16) + (first % 16).toNat) = first :=
      Nibbles.join_halves first
    rw [hzero, UInt8.toNat_zero, Nat.add_zero] at hjoin
    rw [encode_even _ hlen (Nibbles.packPairs_ofBytes rest), flag_of_le _ hle false heven, hjoin]

/-! ## What is read -/

theorem decode_isOk_iff (c : Bytes) : (∃ k, decode c = .ok k) ↔ IsCompact c := by
  constructor
  · rintro ⟨k, h⟩
    obtain ⟨first, rest, rfl, hle, ⟨hodd, _⟩ | ⟨_, hzero, _⟩⟩ := decode_cases h
    · refine (isCompact_cons_iff first rest).mpr ⟨hle, fun heven => ?_⟩
      omega
    · exact (isCompact_cons_iff first rest).mpr ⟨hle, fun _ => hzero⟩
  · intro h
    cases c with
    | nil => exact h.elim
    | cons first rest =>
        obtain ⟨hle, hzero⟩ := (isCompact_cons_iff first rest).mp h
        rcases Nat.mod_two_eq_zero_or_one (first.toNat / 16) with heven | hodd
        · exact ⟨_, decode_even rest hle heven (hzero heven)⟩
        · exact ⟨_, decode_odd rest hle hodd⟩

theorem decode_fault {c : Bytes} {f : Fault} (h : decode c = .error f) :
    f.kind? = some .malformedEncoding := by
  cases c with
  | nil =>
      cases h
      rfl
  | cons first rest =>
      simp only [decode] at h
      split at h
      · cases h
        rfl
      · split at h
        · cases h
        · split at h
          · cases h
          · cases h
            rfl

end Compact

namespace Key

theorem inRange_ofCompact (compact : Bytes) (k : Key) (h : ofCompact compact = .ok k) :
    Nibbles.InRange k.nibbles := by
  obtain ⟨first, rest, rfl, _, ⟨_, rfl⟩ | ⟨_, _, rfl⟩⟩ := Compact.decode_cases h
  · exact Nibbles.inRange_cons.mpr ⟨Nibbles.toNat_mod_lt first, Nibbles.inRange_ofBytes rest⟩
  · exact Nibbles.inRange_ofBytes rest

/-- The path of a decoded key can be packed. -/
theorem bare_ofCompact (compact : Bytes) (k : Key) (h : ofCompact compact = .ok k) :
    ∃ b, k.bare = .ok b :=
  Nibbles.toBytes_isOk _ (inRange_ofCompact compact k h)

end Key

namespace Compact

/-- **The compact form is a bijection.** Every path of nibbles has a compact form, from which it is
read back with its flag. A byte string is read exactly if it is a compact form; what is read are
nibbles, of which it is the compact form. All other byte strings are malformed encodings. -/
theorem compact_codec :
    (∀ nibbles isLeaf, Nibbles.InRange nibbles →
      ∃ c, encode nibbles isLeaf = .ok c ∧ decode c = .ok ⟨nibbles, isLeaf⟩) ∧
    ∀ c : Bytes,
      ((∃ k, decode c = .ok k) ↔ IsCompact c) ∧
      (∀ k, decode c = .ok k →
        Nibbles.InRange k.nibbles ∧ encode k.nibbles k.isLeaf = .ok c) ∧
      (∀ k, Key.ofCompact c = .ok k → k.compact = .ok c) ∧
      (¬ IsCompact c → ∃ f, decode c = .error f ∧ f.kind? = some .malformedEncoding) := by
  refine ⟨decode_encode, fun c => ⟨decode_isOk_iff c, ?_, ?_, ?_⟩⟩
  · exact fun k hk => ⟨Key.inRange_ofCompact c k hk, encode_of_decode hk⟩
  · exact fun k hk => encode_of_decode hk
  · intro hno
    cases hc : decode c with
    | ok k => exact absurd ((decode_isOk_iff c).mp ⟨k, hc⟩) hno
    | error f => exact ⟨f, rfl, decode_fault hc⟩

/-- The odd path `1 2 f` of a leaf is written `31 2f`; the flag nibble 4 is none. -/
theorem compact_codec_odd_leaf :
    Nibbles.InRange [1, 2, 15] ∧ decode [0x31, 0x2f] = .ok ⟨[1, 2, 15], true⟩ ∧
      encode [1, 2, 15] true = .ok [0x31, 0x2f] ∧
      (∃ c, encode [1, 2, 15] true = .ok c ∧ decode c = .ok ⟨[1, 2, 15], true⟩) ∧
      ¬ IsCompact [0x40] ∧ ∃ f, decode [0x40] = .error f ∧ f.kind? = some .malformedEncoding := by
  have hrange : Nibbles.InRange [1, 2, 15] := by simp [Nibbles.InRange]
  have hread : decode [0x31, 0x2f] = .ok ⟨[1, 2, 15], true⟩ := rfl
  have hno : ¬ IsCompact [0x40] := by decide
  obtain ⟨hwrite, hall⟩ := compact_codec
  exact ⟨hrange, hread, ((hall [0x31, 0x2f]).2.1 _ hread).2, hwrite _ true hrange, hno,
    (hall [0x40]).2.2.2 hno⟩

end Compact

end Patricia
