import Patricia.Path.Nibbles

/-
  Nibbles and bytes.

  Packing refuses a pair of values with `16a + b` above 255. Nibbles cut out of bytes stay below
  16 (`inRange_ofBytes`), and values below 16 always pack (`toBytes_isOk`). On an even number of
  them, packing and cutting undo each other (`packPairs_ofBytes`, `ofBytes_packPairs`).
-/

namespace Patricia

namespace Nibbles

/-- Every value is below 16. -/
def InRange (nibbles : Bytes) : Prop := ∀ x ∈ nibbles, x.toNat < 16

theorem inRange_nil : InRange [] := by simp [InRange]

theorem inRange_cons {x : UInt8} {nibbles : Bytes} :
    InRange (x :: nibbles) ↔ x.toNat < 16 ∧ InRange nibbles := by
  simp [InRange]

theorem toNat_mod_lt (x : UInt8) : (x % 16).toNat < 16 := by
  rw [UInt8.toNat_mod]
  exact Nat.mod_lt _ (by decide)

theorem inRange_ofBytes (b : Bytes) : InRange (ofBytes b) := by
  induction b with
  | nil => exact inRange_nil
  | cons x rest ih =>
      have hx : x.toNat < 256 := x.toNat_lt
      simp only [ofBytes, inRange_cons, UInt8.toNat_div]
      exact ⟨by simp; omega, toNat_mod_lt x, ih⟩

theorem packPairs_isOk : ∀ nibbles : Bytes, InRange nibbles → ∃ b, packPairs nibbles = .ok b
  | [], _ => ⟨[], rfl⟩
  | [_], _ => ⟨[], rfl⟩
  | x :: y :: rest, h => by
      obtain ⟨hx, hrest⟩ := inRange_cons.mp h
      obtain ⟨hy, hrest⟩ := inRange_cons.mp hrest
      obtain ⟨b, hb⟩ := packPairs_isOk rest hrest
      have hlt : 16 * x.toNat + y.toNat < 256 := by omega
      refine ⟨UInt8.ofNat (16 * x.toNat + y.toNat) :: b, ?_⟩
      simp only [packPairs, byte, if_pos hlt, hb]
      rfl

/-- Values below 16 have a bare form, whatever their number. -/
theorem toBytes_isOk (nibbles : Bytes) (h : InRange nibbles) : ∃ b, toBytes nibbles = .ok b := by
  unfold toBytes
  split
  · exact packPairs_isOk _ (inRange_cons.mpr ⟨by decide, h⟩)
  · exact packPairs_isOk _ h

/-! ## The halves of a byte -/

section Halves

variable {a b : Nat} (ha : a < 16) (hb : b < 16)

include ha hb

theorem toNat_join : (UInt8.ofNat (16 * a + b)).toNat = 16 * a + b := by
  rw [UInt8.toNat_ofNat']
  omega

theorem join_div : UInt8.ofNat (16 * a + b) / 16 = UInt8.ofNat a := by
  rw [← UInt8.toNat_inj, UInt8.toNat_div, toNat_join ha hb, UInt8.toNat_ofNat']
  simp
  omega

theorem join_mod : UInt8.ofNat (16 * a + b) % 16 = UInt8.ofNat b := by
  rw [← UInt8.toNat_inj, UInt8.toNat_mod, toNat_join ha hb, UInt8.toNat_ofNat']
  simp
  omega

end Halves

theorem join_halves (x : UInt8) : UInt8.ofNat (16 * (x / 16).toNat + (x % 16).toNat) = x := by
  have hx : x.toNat < 256 := x.toNat_lt
  rw [← UInt8.toNat_inj, UInt8.toNat_ofNat', UInt8.toNat_div, UInt8.toNat_mod]
  simp
  omega

theorem length_ofBytes (b : Bytes) : (ofBytes b).length = 2 * b.length := by
  induction b with
  | nil => rfl
  | cons x rest ih =>
      simp only [ofBytes, List.length_cons, ih]
      omega

theorem packPairs_ofBytes (b : Bytes) : packPairs (ofBytes b) = .ok b := by
  induction b with
  | nil => rfl
  | cons x rest ih =>
      have hhigh := (inRange_cons.mp (inRange_ofBytes (x :: rest))).1
      have hlow := toNat_mod_lt x
      have hlt : 16 * (x / 16).toNat + (x % 16).toNat < 256 := by omega
      simp only [ofBytes, packPairs, byte, if_pos hlt, ih, join_halves]
      rfl

theorem ofBytes_packPairs : ∀ nibbles : Bytes, InRange nibbles → nibbles.length % 2 = 0 →
    ∃ b, packPairs nibbles = .ok b ∧ ofBytes b = nibbles
  | [], _, _ => ⟨[], rfl, rfl⟩
  | [_], _, h => by simp at h
  | x :: y :: rest, h, heven => by
      obtain ⟨hx, hrest⟩ := inRange_cons.mp h
      obtain ⟨hy, hrest⟩ := inRange_cons.mp hrest
      have heven' : rest.length % 2 = 0 := by
        simp only [List.length_cons] at heven
        omega
      obtain ⟨b, hb, hcut⟩ := ofBytes_packPairs rest hrest heven'
      have hlt : 16 * x.toNat + y.toNat < 256 := by omega
      refine ⟨UInt8.ofNat (16 * x.toNat + y.toNat) :: b, ?_, ?_⟩
      · simp only [packPairs, byte, if_pos hlt, hb]
        rfl
      · rw [ofBytes, join_div hx hy, join_mod hx hy, hcut, UInt8.ofNat_toNat, UInt8.ofNat_toNat]

end Nibbles

end Patricia
