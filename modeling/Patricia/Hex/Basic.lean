import Patricia.Bytes

/-
  Hexadecimal digits and the written form of a byte string.

  A byte is two lowercase digits, the high half first. The mark `0x` in front is optional where
  hexadecimal is read and always present where it is shown.
-/

namespace Patricia.Hex

/-- The sixteen digits, in order of their value. -/
def digits : List Char :=
  ['0', '1', '2', '3', '4', '5', '6', '7', '8', '9', 'a', 'b', 'c', 'd', 'e', 'f']

/-- The digit for a value below 16. -/
def digit (n : Nat) : Char := digits.getD n '?'

/-- The value of a digit of either case. -/
def value? (c : Char) : Option Nat :=
  if '0' ≤ c ∧ c ≤ '9' then some (c.toNat - '0'.toNat)
  else if 'a' ≤ c ∧ c ≤ 'f' then some (c.toNat - 'a'.toNat + 10)
  else if 'A' ≤ c ∧ c ≤ 'F' then some (c.toNat - 'A'.toNat + 10)
  else none

/-- Two digits a byte. -/
def encodeList : Bytes → List Char
  | [] => []
  | b :: rest => digit (b.toNat / 16) :: digit (b.toNat % 16) :: encodeList rest

/-- The digits of a byte string, without a mark. -/
def encode (b : Bytes) : String := String.ofList (encodeList b)

/-- The digits of a byte string behind the mark `0x`. -/
def marked (b : Bytes) : String := "0x" ++ encode b

/-! ## Digits -/

theorem digit_mem {n : Nat} (h : n < 16) : digit n ∈ digits := by
  have hall : ∀ m < 16, digit m ∈ digits := by decide
  exact hall n h

theorem digit_of_le {n : Nat} (h : 16 ≤ n) : digit n = '?' := by
  rw [digit, List.getD_eq_getElem?_getD, List.getElem?_eq_none h, Option.getD_none]

theorem digit_inj {m n : Nat} (hm : m < 16) (hn : n < 16) (h : digit m = digit n) : m = n := by
  have hall : ∀ i < 16, ∀ j < 16, digit i = digit j → i = j := by decide
  exact hall m hm n hn h

theorem div_sixteen_lt (x : UInt8) : x.toNat / 16 < 16 := by
  have := x.toNat_lt
  omega

/-- A byte string is written with digits only. -/
theorem mem_digits_of_mem_encodeList {b : Bytes} {c : Char} (h : c ∈ encodeList b) :
    c ∈ digits := by
  induction b with
  | nil => exact absurd h List.not_mem_nil
  | cons x rest ih =>
      rw [encodeList, List.mem_cons, List.mem_cons] at h
      obtain rfl | rfl | h := h
      · exact digit_mem (div_sixteen_lt x)
      · exact digit_mem (Nat.mod_lt _ (by decide))
      · exact ih h

/-! ## The mark -/

/-- The text starts with the mark `0x`, in lowercase. -/
def hasMarkList : List Char → Bool
  | '0' :: 'x' :: _ => true
  | _ => false

/-- The text behind one leading mark, or the whole text. -/
def dropMarkList : List Char → List Char
  | '0' :: 'x' :: rest => rest
  | t => t

/-- The text starts with the mark `0x`. -/
def hasMark (text : String) : Bool := hasMarkList text.toList

/-- The text with one leading mark removed. -/
def dropMark (text : String) : String := String.ofList (dropMarkList text.toList)

end Patricia.Hex
