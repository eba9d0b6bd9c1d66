import Patricia.Bytes

/-
  RLP: items and their one canonical encoding.

  An item is a byte string or a list of items. Its encoding is a head, which tells the kind and
  the size of what follows, and the payload. A size below 56 is part of the first byte; a larger
  one is written behind it, most significant byte first, without leading zeros. A single byte
  below 128 is its own encoding.
-/

namespace Patricia.Rlp

/-- A byte string, or a list of items. -/
inductive Item
  | bytes (content : Bytes)
  | list (items : List Item)

/-- The bytes of a number, most significant first, without leading zeros. -/
def bigEndian (n : Nat) : Bytes :=
  if _h : n = 0 then [] else bigEndian (n / 256) ++ [UInt8.ofNat n]
termination_by n

/-- The number with these bytes, most significant first. -/
def ofBigEndian (b : Bytes) : Nat := b.foldl (fun n d => 256 * n + d.toNat) 0

/-- The largest size that fits into the first byte. -/
def shortLimit : Nat := 55

/-- The head for a payload of `size` bytes; `base` tells the kind (128 for a byte string, 192 for
a list). -/
def head (base size : Nat) : Bytes :=
  if size ≤ shortLimit then [UInt8.ofNat (base + size)]
  else
    let sizeBytes := bigEndian size
    UInt8.ofNat (base + shortLimit + sizeBytes.length) :: sizeBytes

/-- The encoding of a byte string. -/
def encodeBytes (content : Bytes) : Bytes :=
  match content with
  | [b] => if b.toNat < 128 then [b] else head 128 1 ++ [b]
  | _ => head 128 content.length ++ content

mutual
/-- The canonical encoding of an item. -/
def encode : Item → Bytes
  | .bytes content => encodeBytes content
  | .list items => head 192 (encodeAll items).length ++ encodeAll items

/-- The encodings of several items, one behind the other. -/
def encodeAll : List Item → Bytes
  | [] => []
  | item :: rest => encode item ++ encodeAll rest
end

end Patricia.Rlp
