import Patricia.Bytes
import Patricia.Keccak.Permutation

/-
  The hash keccak-256: a sponge over the permutation that takes 136 bytes a block.

  The message is padded to whole blocks with the bytes `01 00 … 00 80` (`81` if one byte is
  missing); each block is added to the first 17 lanes, little end first, and the state permuted.
  The digest is the first four lanes. The padding is that of the first Keccak submission, not the
  one of the later standard, which starts with `06`.
-/

namespace Patricia.Keccak

/-- Bytes of a block. -/
def rate : Nat := 136

/-- The message with its padding. -/
def pad (message : Bytes) : Bytes :=
  let gap := rate - message.length % rate
  if gap = 1 then message ++ [0x81]
  else message ++ 0x01 :: (List.replicate (gap - 2) 0 ++ [0x80])

/-- Eight bytes a lane, little end first. -/
def lanes : Bytes → List UInt64
  | a :: b :: c :: d :: e :: f :: g :: h :: rest =>
    (a.toUInt64 ||| b.toUInt64 <<< 8 ||| c.toUInt64 <<< 16 ||| d.toUInt64 <<< 24 |||
      e.toUInt64 <<< 32 ||| f.toUInt64 <<< 40 ||| g.toUInt64 <<< 48 ||| h.toUInt64 <<< 56)
      :: lanes rest
  | _ => []

/-- The bytes of a lane, little end first. -/
def laneBytes (w : UInt64) : Bytes :=
  [w.toUInt8, (w >>> 8).toUInt8, (w >>> 16).toUInt8, (w >>> 24).toUInt8, (w >>> 32).toUInt8,
    (w >>> 40).toUInt8, (w >>> 48).toUInt8, (w >>> 56).toUInt8]

/-- The plane whose lanes stand at position `i` and behind; absent lanes are zero. -/
def Plane.ofLanes (ws : List UInt64) (i : Nat) : Plane :=
  ⟨ws.getD i 0, ws.getD (i + 1) 0, ws.getD (i + 2) 0, ws.getD (i + 3) 0, ws.getD (i + 4) 0⟩

/-- The state whose first lanes are those of a block. -/
def State.ofBlock (block : Bytes) : State :=
  let ws := lanes block
  ⟨Plane.ofLanes ws 0, Plane.ofLanes ws 5, Plane.ofLanes ws 10, Plane.ofLanes ws 15,
    Plane.ofLanes ws 20⟩

/-- Takes in `n` blocks. -/
def absorb : Nat → Bytes → State → State
  | 0, _, s => s
  | n + 1, m, s => absorb n (m.drop rate) (permute (s.xor (State.ofBlock (m.take rate))))

/-- The first 32 bytes of a state. -/
def squeeze (s : State) : Digest where
  bytes := laneBytes s.p0.a ++ laneBytes s.p0.b ++ laneBytes s.p0.c ++ laneBytes s.p0.d
  size_eq := rfl

end Patricia.Keccak

namespace Patricia

/-- The keccak-256 digest of a byte string. -/
def keccak256 (message : Bytes) : Digest :=
  let padded := Keccak.pad message
  Keccak.squeeze (Keccak.absorb (padded.length / Keccak.rate) padded (Keccak.State.ofBlock []))

end Patricia
