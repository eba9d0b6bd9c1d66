/-
  The permutation Keccak-f[1600].

  The state is five planes of five 64-bit lanes. A round is θ (mix the columns), ρ with π (turn
  each lane and move it), χ (the only step that is not linear, plane by plane) and ι (add the
  round constant); the permutation is 24 rounds that differ in their constant only.

  The lane at column `x` of plane `y` moves to column `y` of plane `2x + 3y` (mod 5); `rhoPi`
  writes this out, with the amount by which each lane is turned.
-/

namespace Patricia.Keccak

/-- Five lanes, one for each column. -/
structure Plane where
  a : UInt64
  b : UInt64
  c : UInt64
  d : UInt64
  e : UInt64
deriving DecidableEq

/-- Five planes. -/
structure State where
  p0 : Plane
  p1 : Plane
  p2 : Plane
  p3 : Plane
  p4 : Plane
deriving DecidableEq

/-- The lane turned to the left by `n` bits. -/
def turn (w : UInt64) (n : UInt64) : UInt64 := (w <<< n) ||| (w >>> (64 - n))

/-- Lane by lane exclusive or. -/
def Plane.xor (p q : Plane) : Plane :=
  ⟨p.a ^^^ q.a, p.b ^^^ q.b, p.c ^^^ q.c, p.d ^^^ q.d, p.e ^^^ q.e⟩

/-- Lane by lane exclusive or. -/
def State.xor (s t : State) : State :=
  ⟨s.p0.xor t.p0, s.p1.xor t.p1, s.p2.xor t.p2, s.p3.xor t.p3, s.p4.xor t.p4⟩

/-- What θ adds to every plane: the parity of the column before, and of the column behind turned
by one bit. -/
def columnMix (s : State) : Plane :=
  let c := (((s.p0.xor s.p1).xor s.p2).xor s.p3).xor s.p4
  ⟨c.e ^^^ turn c.b 1, c.a ^^^ turn c.c 1, c.b ^^^ turn c.d 1, c.c ^^^ turn c.e 1,
    c.d ^^^ turn c.a 1⟩

/-- Adds the mix of two neighbour columns to each column. -/
def theta (s : State) : State :=
  let d := columnMix s
  ⟨s.p0.xor d, s.p1.xor d, s.p2.xor d, s.p3.xor d, s.p4.xor d⟩

/-- Turns each lane by its own amount and moves it to its new place. -/
def rhoPi (s : State) : State :=
  ⟨⟨s.p0.a, turn s.p1.b 44, turn s.p2.c 43, turn s.p3.d 21, turn s.p4.e 14⟩,
    ⟨turn s.p0.d 28, turn s.p1.e 20, turn s.p2.a 3, turn s.p3.b 45, turn s.p4.c 61⟩,
    ⟨turn s.p0.b 1, turn s.p1.c 6, turn s.p2.d 25, turn s.p3.e 8, turn s.p4.a 18⟩,
    ⟨turn s.p0.e 27, turn s.p1.a 36, turn s.p2.b 10, turn s.p3.c 15, turn s.p4.d 56⟩,
    ⟨turn s.p0.c 62, turn s.p1.d 55, turn s.p2.e 39, turn s.p3.a 41, turn s.p4.b 2⟩⟩

/-- Adds to each lane what the next two lanes of its plane decide. -/
def Plane.chi (p : Plane) : Plane :=
  ⟨p.a ^^^ (~~~p.b &&& p.c), p.b ^^^ (~~~p.c &&& p.d), p.c ^^^ (~~~p.d &&& p.e),
    p.d ^^^ (~~~p.e &&& p.a), p.e ^^^ (~~~p.a &&& p.b)⟩

/-- One round with its constant. -/
def round (s : State) (constant : UInt64) : State :=
  let t := rhoPi (theta s)
  let q := t.p0.chi
  ⟨⟨q.a ^^^ constant, q.b, q.c, q.d, q.e⟩, t.p1.chi, t.p2.chi, t.p3.chi, t.p4.chi⟩

/-- The round constants. -/
def constants : List UInt64 :=
  [0x0000000000000001, 0x0000000000008082, 0x800000000000808a, 0x8000000080008000,
    0x000000000000808b, 0x0000000080000001, 0x8000000080008081, 0x8000000000008009,
    0x000000000000008a, 0x0000000000000088, 0x0000000080008009, 0x000000008000000a,
    0x000000008000808b, 0x800000000000008b, 0x8000000000008089, 0x8000000000008003,
    0x8000000000008002, 0x8000000000000080, 0x000000000000800a, 0x800000008000000a,
    0x8000000080008081, 0x8000000000008080, 0x0000000080000001, 0x8000000080008008]

/-- All rounds. -/
def permute (s : State) : State := constants.foldl round s

end Patricia.Keccak
