import Patricia.Fault

/-
  Nibble lists and their bare form.

  A path through a trie is a list of nibbles, values below 16, kept one in a byte. Its bare form
  packs two in a byte, with a zero in front of a list of odd length. Packing computes `16a + b`
  and refuses a pair for which that is no byte; it does not look at the nibbles one by one.
-/

namespace Patricia.Nibbles

/-- The two halves of each byte, the high one first. -/
def ofBytes : Bytes → Bytes
  | [] => []
  | b :: rest => b / 16 :: b % 16 :: ofBytes rest

/-- The byte of a value, if it is in range. -/
def byte (n : Nat) : Except Fault UInt8 :=
  if n < 256 then .ok (UInt8.ofNat n) else .error .byteRange

/-- Packs the values pairwise from the front; a last one without a partner is left out. -/
def packPairs : Bytes → Except Fault Bytes
  | a :: b :: rest =>
    match byte (16 * a.toNat + b.toNat) with
    | .error f => .error f
    | .ok packed => (packPairs rest).map (packed :: ·)
  | _ => .ok []

/-- The bare form: two values in a byte, a zero in front if their number is odd. -/
def toBytes (nibbles : Bytes) : Except Fault Bytes :=
  packPairs (if nibbles.length % 2 = 1 then 0 :: nibbles else nibbles)

end Patricia.Nibbles
