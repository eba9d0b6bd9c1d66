import Patricia.Proofs.Path.Compact

/-
  The compact forms behind a bare path.

  A bare path packs two nibbles in a byte, with a zero in front of an odd number of them. So it does
  not tell `0 1` from `1`: both are the bare path `01`. A bare path has one compact form of even
  length, and a second one of odd length exactly if its first byte is below 16 (`OfBare`). These are
  the byte strings that are split into this path (`split_ok_iff`); the terminator flag is kept.
-/

namespace Patricia

namespace Nibbles

theorem toBytes_ofBytes (b : Bytes) : toBytes (ofBytes b) = .ok b := by
  have heven : ¬ (ofBytes b).length % 2 = 1 := by
    rw [length_ofBytes]
    omega
  rw [toBytes, if_neg heven, packPairs_ofBytes]

/-- An odd path has its first nibble alone in a byte. -/
theorem toBytes_cons_ofBytes {x : UInt8} (hx : x.toNat < 16) (b : Bytes) :
    toBytes (x :: ofBytes b) = .ok (x :: b) := by
  have hodd : (x :: ofBytes b).length % 2 = 1 := by
    rw [List.length_cons, length_ofBytes]
    omega
  have hlt : 16 * (0 : UInt8).toNat + x.toNat < 256 := by
    rw [UInt8.toNat_zero]
    omega
  rw [toBytes, if_pos hodd]
  simp only [packPairs, byte, if_pos hlt, packPairs_ofBytes]
  rw [UInt8.toNat_zero, Nat.mul_zero, Nat.zero_add, UInt8.ofNat_toNat]
  rfl

end Nibbles

namespace Compact

/-- The first byte of an even path. The nibble behind the flags is zero. -/
def evenByte (isLeaf : Bool) : UInt8 := if isLeaf then 0x20 else 0x00

/-- The first byte of an odd path that starts with the nibble `x`. -/
def oddByte (isLeaf : Bool) (x : UInt8) : UInt8 := (if isLeaf then 0x30 else 0x10) + x

/-- The compact forms of a bare path. -/
inductive OfBare (isLeaf : Bool) : (bare compact : Bytes) → Prop
  | even (bare : Bytes) : OfBare isLeaf bare (evenByte isLeaf :: bare)
  | odd {x : UInt8} (rest : Bytes) (hx : x < 16) :
    OfBare isLeaf (x :: rest) (oddByte isLeaf x :: rest)

theorem exists_ofBare_iff (isLeaf : Bool) (bare : Bytes) (P : Bytes → Prop) :
    (∃ compact, OfBare isLeaf bare compact ∧ P compact) ↔
      P (evenByte isLeaf :: bare) ∨
        ∃ x rest, bare = x :: rest ∧ x < 16 ∧ P (oddByte isLeaf x :: rest) := by
  constructor
  · rintro ⟨compact, hcompact, hP⟩
    cases hcompact with
    | even => exact Or.inl hP
    | odd rest hx => exact Or.inr ⟨_, rest, rfl, hx, hP⟩
  · rintro (hP | ⟨x, rest, rfl, hx, hP⟩)
    · exact ⟨_, .even bare, hP⟩
    · exact ⟨_, .odd rest hx, hP⟩

/-! ## The first byte -/

theorem evenByte_div (isLeaf : Bool) : (evenByte isLeaf).toNat / 16 = flag isLeaf false := by
  cases isLeaf <;> rfl

theorem evenByte_mod (isLeaf : Bool) : evenByte isLeaf % 16 = 0 := by
  cases isLeaf <;> rfl

theorem toNat_oddByte (isLeaf : Bool) {x : UInt8} (hx : x.toNat < 16) :
    (oddByte isLeaf x).toNat = 16 * flag isLeaf true + x.toNat := by
  cases isLeaf with
  | false =>
      show ((0x10 : UInt8) + x).toNat = 16 * 1 + x.toNat
      rw [UInt8.toNat_add]
      show (16 + x.toNat) % 2 ^ 8 = 16 * 1 + x.toNat
      omega
  | true =>
      show ((0x30 : UInt8) + x).toNat = 16 * 3 + x.toNat
      rw [UInt8.toNat_add]
      show (48 + x.toNat) % 2 ^ 8 = 16 * 3 + x.toNat
      omega

theorem oddByte_div (isLeaf : Bool) {x : UInt8} (hx : x.toNat < 16) :
    (oddByte isLeaf x).toNat / 16 = flag isLeaf true := by
  rw [toNat_oddByte isLeaf hx]
  omega

theorem oddByte_mod (isLeaf : Bool) {x : UInt8} (hx : x.toNat < 16) :
    oddByte isLeaf x % 16 = x := by
  rw [← UInt8.toNat_inj, UInt8.toNat_mod, toNat_oddByte isLeaf hx]
  show (16 * flag isLeaf true + x.toNat) % 16 = x.toNat
  omega

/-- A byte is given by its flags and its low nibble. -/
theorem eq_of_div_mod {a b : UInt8} (hdiv : a.toNat / 16 = b.toNat / 16) (hmod : a % 16 = b % 16) :
    a = b := by
  have hmod' : a.toNat % 16 = b.toNat % 16 := by
    have h := congrArg UInt8.toNat hmod
    rw [UInt8.toNat_mod, UInt8.toNat_mod] at h
    exact h
  rw [← UInt8.toNat_inj]
  omega

/-! ## Splitting -/

theorem split_ok_iff_key (compact bare : Bytes) (isLeaf : Bool) :
    split compact = .ok (bare, isLeaf) ↔
      ∃ key, decode compact = .ok key ∧ key.bare = .ok bare ∧ key.isLeaf = isLeaf := by
  unfold split Key.ofCompact
  cases decode compact with
  | error f => simp
  | ok key =>
      cases hbare : key.bare with
      | error f => simp [Except.map, hbare]
      | ok path => simp [Except.map, hbare]

theorem OfBare.split {isLeaf : Bool} {bare compact : Bytes} (h : OfBare isLeaf bare compact) :
    Compact.split compact = .ok (bare, isLeaf) := by
  rw [split_ok_iff_key]
  cases h with
  | even =>
      have hdiv := evenByte_div isLeaf
      refine ⟨⟨Nibbles.ofBytes bare, isLeaf⟩, ?_, Nibbles.toBytes_ofBytes bare, rfl⟩
      rw [decode_even bare (by rw [hdiv]; exact flag_le isLeaf false)
        (by rw [hdiv]; exact flag_mod isLeaf false) (evenByte_mod isLeaf), hdiv, two_le_flag]
  | @odd x rest hx =>
      have hx : x.toNat < 16 := hx
      have hdiv := oddByte_div isLeaf hx
      refine ⟨⟨x :: Nibbles.ofBytes rest, isLeaf⟩, ?_, Nibbles.toBytes_cons_ofBytes hx rest, rfl⟩
      rw [decode_odd rest (by rw [hdiv]; exact flag_le isLeaf true)
        (by rw [hdiv]; exact flag_mod isLeaf true), hdiv, two_le_flag, oddByte_mod isLeaf hx]

/-- The byte strings that are split into a bare path are its compact forms. -/
theorem split_ok_iff (compact bare : Bytes) (isLeaf : Bool) :
    split compact = .ok (bare, isLeaf) ↔ OfBare isLeaf bare compact := by
  refine ⟨fun h => ?_, OfBare.split⟩
  obtain ⟨key, hdecode, hbare, rfl⟩ := (split_ok_iff_key compact bare isLeaf).mp h
  obtain ⟨first, rest, rfl, hle, ⟨hodd, rfl⟩ | ⟨heven, hzero, rfl⟩⟩ := decode_cases hdecode
  · have hx := Nibbles.toNat_mod_lt first
    obtain rfl := Except.ok.inj ((Nibbles.toBytes_cons_ofBytes hx rest).symm.trans hbare)
    have hfirst : first = oddByte (decide (2 ≤ first.toNat / 16)) (first % 16) := by
      refine eq_of_div_mod ?_ (oddByte_mod _ hx).symm
      rw [oddByte_div _ hx, flag_of_le _ hle true hodd]
    have hform := @OfBare.odd (decide (2 ≤ first.toNat / 16)) _ rest hx
    rwa [← hfirst] at hform
  · obtain rfl := Except.ok.inj ((Nibbles.toBytes_ofBytes rest).symm.trans hbare)
    have hfirst : first = evenByte (decide (2 ≤ first.toNat / 16)) := by
      refine eq_of_div_mod ?_ (hzero.trans (evenByte_mod _).symm)
      rw [evenByte_div, flag_of_le _ hle false heven]
    have hform := @OfBare.even (decide (2 ≤ first.toNat / 16)) rest
    rwa [← hfirst] at hform

end Compact

end Patricia
