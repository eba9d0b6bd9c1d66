import Patricia.Path.Nibbles

/-
  The compact form of a path, as nodes store it.

  The first nibble holds two flags: bit 0 says that the path is of odd length, bit 1 that the node
  is a leaf. An odd path starts in the low half of the first byte; behind an even one's flags
  stands a zero nibble. `decode` accepts exactly the byte strings of this form.
-/

namespace Patricia

/-- A path with its terminator flag. The nibbles are taken as they are given; those of a decoded
path are below 16. -/
structure Key where
  nibbles : Bytes
  isLeaf : Bool
deriving DecidableEq

namespace Compact

/-- The flag nibble of a path of the given kind. -/
def flag (isLeaf isOdd : Bool) : Nat := 2 * isLeaf.toNat + isOdd.toNat

/-- The compact form of a list of nibbles. -/
def encode (nibbles : Bytes) (isLeaf : Bool) : Except Fault Bytes :=
  if nibbles.length % 2 = 0 then
    match Nibbles.byte (16 * flag isLeaf false) with
    | .error f => .error f
    | .ok first => (Nibbles.packPairs nibbles).map (first :: ·)
  else
    match nibbles with
    | [] => .ok []
    | x :: rest =>
      match Nibbles.byte (16 * flag isLeaf true + x.toNat) with
      | .error f => .error f
      | .ok first => (Nibbles.packPairs rest).map (first :: ·)

/-- The path of which a byte string is the compact form. -/
def decode : Bytes → Except Fault Key
  | [] => .error .emptyPath
  | first :: rest =>
    let flag := first.toNat / 16
    if 3 < flag then .error (.pathFlag flag)
    else
      let isLeaf := decide (2 ≤ flag)
      if flag % 2 = 1 then .ok ⟨first % 16 :: Nibbles.ofBytes rest, isLeaf⟩
      else if first % 16 = 0 then .ok ⟨Nibbles.ofBytes rest, isLeaf⟩
      else .error .pathPadding

end Compact

namespace Key

/-- The key with this compact form. -/
def ofCompact (compact : Bytes) : Except Fault Key := Compact.decode compact

/-- The bare form of the path. -/
def bare (k : Key) : Except Fault Bytes := Nibbles.toBytes k.nibbles

/-- The compact form of the path. -/
def compact (k : Key) : Except Fault Bytes := Compact.encode k.nibbles k.isLeaf

/-- Assigns to a field by name, which a key never allows. -/
def assign (_ : Key) (_field : String) : Except Refusal Key := .error .frozen

end Key

namespace Compact

/-- The bare form of a compact path, and its terminator flag. -/
def split (compact : Bytes) : Except Fault (Bytes × Bool) :=
  match Key.ofCompact compact with
  | .error f => .error f
  | .ok key => key.bare.map (fun b => (b, key.isLeaf))

/-- The bare form of a compact path. -/
def strip (compact : Bytes) : Except Fault Bytes :=
  match Key.ofCompact compact with
  | .error f => .error f
  | .ok key => key.bare

end Compact

end Patricia
