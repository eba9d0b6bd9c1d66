import Patricia.Rlp.Item

/-
  Strict reading of RLP.

  `decode` accepts the canonical encoding of one item and nothing else: no byte may be missing or
  left over, a size is written in its shortest form, and a byte below 128 is never wrapped. The
  payload of a list is read by the same rules before anybody counts its items.

  The unit of reading is a sequence of encodings (`items`): the payload of a list is one, and a
  text that is one encoding is a sequence of length one. Each step takes a head off, and what it
  leaves, inside and behind the item, is shorter; the number of bytes bounds the depth.
-/

namespace Patricia.Rlp

/-- The first `n` bytes and the rest, if there are that many. -/
def splitExact (n : Nat) (b : Bytes) : Option (Bytes × Bytes) :=
  if n ≤ b.length then some (b.take n, b.drop n) else none

/-- The size written in the first `width` bytes, and the rest. It must be one that needs them: no
leading zero, and too large for the first byte. -/
def readSize (width : Nat) (b : Bytes) : Option (Nat × Bytes) :=
  match splitExact width b with
  | none => none
  | some (sizeBytes, rest) =>
    if sizeBytes.head? = some 0 then none
    else
      let size := ofBigEndian sizeBytes
      if size ≤ shortLimit then none else some (size, rest)

-- Irreducible, so that opening `items` never evaluates an offset such as `first.toNat - 128`.
/-- Payload and rest behind a first byte that stands `offset` above the base of its kind. -/
@[irreducible] def readPayload (offset : Nat) (b : Bytes) : Option (Bytes × Bytes) :=
  if offset ≤ shortLimit then splitExact offset b
  else
    match readSize (offset - shortLimit) b with
    | none => none
    | some (size, rest) => splitExact size rest

/-- The wrapped form of a byte that stands for itself. -/
def isWrapped : Bytes → Bool
  | [b] => b.toNat < 128
  | _ => false

/-- Reads a sequence of encodings to its end, to a depth of at most `fuel` steps. -/
def items : Nat → Bytes → Option (List Item)
  | _, [] => some []
  | 0, _ :: _ => none
  | fuel + 1, first :: b =>
    if first.toNat < 128 then
      (items fuel b).map (Item.bytes [first] :: ·)
    else if first.toNat < 192 then
      match readPayload (first.toNat - 128) b with
      | none => none
      | some (payload, rest) =>
        if first.toNat = 129 ∧ isWrapped payload then none
        else (items fuel rest).map (Item.bytes payload :: ·)
    else
      match readPayload (first.toNat - 192) b with
      | none => none
      | some (payload, rest) =>
        match items fuel payload with
        | none => none
        | some inner => (items fuel rest).map (Item.list inner :: ·)

/-- The item of which a byte string is the canonical encoding. -/
def decode (b : Bytes) : Option Item :=
  match items b.length b with
  | some [item] => some item
  | _ => none

end Patricia.Rlp
