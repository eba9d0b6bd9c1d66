import Mathlib.Algebra.Group.Nat.Defs
import Mathlib.Data.List.Basic
import Mathlib.Data.List.Induction
import Patricia.Rlp.Decode

/-
  Sizes and heads.

  A number is written most significant byte first and without leading zeros in exactly one way
  (`ofBigEndian_bigEndian`, `bigEndian_ofBigEndian`). So a size that does not fit into the first
  byte has one written form behind it, and reading takes off this form and no other
  (`readSize_eq_some_iff`). Hence a payload is read exactly if its head stands before it
  (`readPayload_eq_some_iff`), as long as it is below 2^64 bytes: the first byte has room for a
  width of at most eight.
-/

namespace Patricia.Rlp

/-! ## Numbers as bytes -/

theorem bigEndian_zero : bigEndian 0 = [] := by
  rw [bigEndian, dif_pos rfl]

theorem bigEndian_of_ne_zero {n : Nat} (h : n ≠ 0) :
    bigEndian n = bigEndian (n / 256) ++ [UInt8.ofNat n] := by
  rw [bigEndian, dif_neg h]

theorem bigEndian_eq_nil_iff (n : Nat) : bigEndian n = [] ↔ n = 0 := by
  constructor
  · intro h
    by_contra hn
    rw [bigEndian_of_ne_zero hn] at h
    exact List.append_ne_nil_of_right_ne_nil _ (List.cons_ne_nil _ _) h
  · rintro rfl
    exact bigEndian_zero

theorem ofBigEndian_append (b : Bytes) (d : UInt8) :
    ofBigEndian (b ++ [d]) = 256 * ofBigEndian b + d.toNat := by
  simp [ofBigEndian]

theorem ofBigEndian_bigEndian (n : Nat) : ofBigEndian (bigEndian n) = n := by
  induction n using Nat.strongRecOn with
  | ind n ih =>
    by_cases hn : n = 0
    · rw [hn, bigEndian_zero]
      rfl
    · rw [bigEndian_of_ne_zero hn, ofBigEndian_append, ih (n / 256) (by omega),
        UInt8.toNat_ofNat']
      omega

theorem head?_bigEndian (n : Nat) : (bigEndian n).head? ≠ some 0 := by
  induction n using Nat.strongRecOn with
  | ind n ih =>
    by_cases hn : n = 0
    · rw [hn, bigEndian_zero]
      simp
    · rw [bigEndian_of_ne_zero hn]
      by_cases hsmall : n / 256 = 0
      · -- One byte, which is the number itself.
        rw [hsmall, bigEndian_zero, List.nil_append, List.head?_cons, ne_eq, Option.some.injEq,
          ← UInt8.toNat_inj, UInt8.toNat_ofNat']
        simp
        omega
      · rw [List.head?_append_of_ne_nil _ ((bigEndian_eq_nil_iff _).not.mpr hsmall)]
        exact ih (n / 256) (by omega)

theorem bigEndian_ofBigEndian (b : Bytes) (h : b.head? ≠ some 0) :
    bigEndian (ofBigEndian b) = b := by
  induction b using List.reverseRecOn with
  | nil => exact bigEndian_zero
  | append_singleton b d ih =>
    have hd : d.toNat < 256 := d.toNat_lt
    have hb : bigEndian (ofBigEndian b) = b := by
      by_cases hnil : b = []
      · rw [hnil]
        exact bigEndian_zero
      · rw [List.head?_append_of_ne_nil _ hnil] at h
        exact ih h
    have hne : 256 * ofBigEndian b + d.toNat ≠ 0 := by
      intro hzero
      have hb0 : ofBigEndian b = 0 := by omega
      have hd0 : d = 0 := by
        rw [← UInt8.toNat_inj]
        show d.toNat = 0
        omega
      rw [hb0, bigEndian_zero] at hb
      rw [← hb, hd0] at h
      exact h rfl
    have hdiv : (256 * ofBigEndian b + d.toNat) / 256 = ofBigEndian b := by omega
    have hmod : UInt8.ofNat (256 * ofBigEndian b + d.toNat) = d := by
      rw [← UInt8.toNat_inj, UInt8.toNat_ofNat']
      omega
    rw [ofBigEndian_append, bigEndian_of_ne_zero hne, hdiv, hmod, hb]

theorem length_bigEndian_le_iff (n k : Nat) : (bigEndian n).length ≤ k ↔ n < 256 ^ k := by
  induction k generalizing n with
  | zero => rw [Nat.le_zero, List.length_eq_zero_iff, bigEndian_eq_nil_iff, Nat.pow_zero,
      Nat.lt_one_iff]
  | succ k ih =>
    by_cases hn : n = 0
    · rw [hn, bigEndian_zero]
      exact iff_of_true (Nat.zero_le _) (Nat.pow_pos (by decide))
    · rw [bigEndian_of_ne_zero hn, List.length_append, List.length_singleton,
        Nat.add_le_add_iff_right, ih, Nat.pow_succ]
      omega

/-! ## Sizes -/

theorem splitExact_eq_some_iff (n : Nat) (b x y : Bytes) :
    splitExact n b = some (x, y) ↔ x.length = n ∧ b = x ++ y := by
  unfold splitExact
  constructor
  · intro h
    split at h
    · next hle =>
        cases h
        exact ⟨List.length_take_of_le hle, (List.take_append_drop n b).symm⟩
    · cases h
  · rintro ⟨rfl, rfl⟩
    simp

theorem readSize_eq_some_iff (width : Nat) (b : Bytes) (size : Nat) (rest : Bytes) :
    readSize width b = some (size, rest) ↔
      shortLimit < size ∧ (bigEndian size).length = width ∧ b = bigEndian size ++ rest := by
  constructor
  · intro h
    unfold readSize at h
    split at h
    · cases h
    · next sizeBytes rest' hsplit =>
        obtain ⟨hlen, rfl⟩ := (splitExact_eq_some_iff _ _ _ _).mp hsplit
        split at h
        · cases h
        · next hhead =>
            dsimp only at h
            split at h
            · cases h
            · next hlarge =>
                cases h
                rw [bigEndian_ofBigEndian sizeBytes hhead]
                exact ⟨Nat.not_le.mp hlarge, hlen, rfl⟩
  · rintro ⟨hlarge, hlen, rfl⟩
    have hsplit := (splitExact_eq_some_iff width _ (bigEndian size) rest).mpr ⟨hlen, rfl⟩
    simp only [readSize, hsplit, if_neg (head?_bigEndian size), ofBigEndian_bigEndian,
      if_neg (Nat.not_le.mpr hlarge)]

/-! ## Heads -/

/-- How far the first byte of a head stands above the base of its kind. -/
def headOffset (size : Nat) : Nat :=
  if size ≤ shortLimit then size else shortLimit + (bigEndian size).length

/-- What stands behind the first byte of a head. -/
def headRest (size : Nat) : Bytes := if size ≤ shortLimit then [] else bigEndian size

theorem head_eq_cons (base size : Nat) :
    head base size = UInt8.ofNat (base + headOffset size) :: headRest size := by
  unfold head headOffset headRest
  split
  · rfl
  · rw [← Nat.add_assoc]

/-- Sizes that eight bytes can hold leave the first byte of a head in the range of its kind. -/
theorem headOffset_lt_iff (size : Nat) : headOffset size < 64 ↔ size < 2 ^ 64 := by
  have hpow : (2 : Nat) ^ 64 = 256 ^ 8 := by decide
  have hwidth := length_bigEndian_le_iff size 8
  unfold headOffset shortLimit
  split
  · omega
  · rw [hpow, ← hwidth]
    omega

theorem headOffset_le_iff (size : Nat) : headOffset size ≤ shortLimit ↔ size ≤ shortLimit := by
  unfold headOffset
  split
  · rfl
  · next hlarge =>
      have hne := (bigEndian_eq_nil_iff size).not.mpr (by omega)
      have hpos := List.length_pos_iff.mpr hne
      omega

theorem readPayload_eq_some_iff (offset : Nat) (b payload rest : Bytes) :
    readPayload offset b = some (payload, rest) ↔
      offset = headOffset payload.length ∧ b = headRest payload.length ++ (payload ++ rest) := by
  have hle := headOffset_le_iff payload.length
  unfold readPayload
  by_cases hshort : offset ≤ shortLimit
  · rw [if_pos hshort, splitExact_eq_some_iff]
    constructor
    · rintro ⟨rfl, rfl⟩
      rw [headOffset, headRest, if_pos hshort, if_pos hshort]
      exact ⟨rfl, rfl⟩
    · rintro ⟨hlen, hb⟩
      have hsize := hle.mp (hlen ▸ hshort)
      simp only [headOffset, headRest, if_pos hsize] at hlen hb
      exact ⟨hlen.symm, hb⟩
  · rw [if_neg hshort]
    constructor
    · intro h
      split at h
      · cases h
      · next size rest' hread =>
          obtain ⟨hlarge, hwidth, rfl⟩ := (readSize_eq_some_iff _ _ _ _).mp hread
          obtain ⟨rfl, rfl⟩ := (splitExact_eq_some_iff _ _ _ _).mp h
          rw [headOffset, headRest, if_neg (Nat.not_le.mpr hlarge), if_neg (Nat.not_le.mpr hlarge)]
          exact ⟨by omega, rfl⟩
    · rintro ⟨hlen, hb⟩
      have hlarge := hle.not.mp (hlen ▸ hshort)
      simp only [headOffset, headRest, if_neg hlarge] at hlen hb
      have hread := (readSize_eq_some_iff (offset - shortLimit) b payload.length
        (payload ++ rest)).mpr ⟨Nat.not_le.mp hlarge, by omega, hb⟩
      simp only [hread]
      exact (splitExact_eq_some_iff _ _ _ _).mpr ⟨rfl, rfl⟩

end Patricia.Rlp
