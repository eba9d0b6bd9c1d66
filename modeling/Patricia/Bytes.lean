/-
  Byte strings and digests.

  A byte string is a list of bytes, so that every decoder below is a recursion on its input.
  A digest carries the proof that it has 32 bytes: nothing else can be the hash of a node, and
  a byte string of another size is turned away where it enters (`Digest.ofBytes?`).
-/

namespace Patricia

/-- A byte string. -/
abbrev Bytes := List UInt8

/-- A 32-byte hash value. -/
structure Digest where
  bytes : Bytes
  size_eq : bytes.length = 32
deriving DecidableEq

namespace Digest

theorem eq_of_bytes_eq {a b : Digest} (h : a.bytes = b.bytes) : a = b := by
  cases a
  cases b
  cases h
  rfl

/-- The digest with these bytes, if there are 32 of them. -/
def ofBytes? (b : Bytes) : Option Digest :=
  if h : b.length = 32 then some ⟨b, h⟩ else none

theorem ofBytes?_bytes (d : Digest) : ofBytes? d.bytes = some d := by
  simp [ofBytes?, d.size_eq]

theorem ofBytes?_eq_some {b : Bytes} {d : Digest} : ofBytes? b = some d ↔ b = d.bytes := by
  constructor
  · intro h
    unfold ofBytes? at h
    split at h
    · cases h; rfl
    · cases h
  · rintro rfl
    exact ofBytes?_bytes d

theorem ofBytes?_eq_none {b : Bytes} : ofBytes? b = none ↔ b.length ≠ 32 := by
  unfold ofBytes?
  split <;> simp_all

end Digest

end Patricia
