import Patricia.Fault

/-
  Reading hexadecimal text.

  The text may start with the mark `0x`. Behind it, bytes are two digits of either case; the six
  blanks of ASCII may stand between bytes and at both ends, never inside a byte. A character
  outside ASCII is reported before anything else, otherwise the first position at which the text
  stops being the beginning of an accepted one. Positions count characters behind the mark.
-/

namespace Patricia.Hex

/-- The blanks that may separate bytes. -/
def isBlank (c : Char) : Bool :=
  c == ' ' || c == '\t' || c == '\n' || c == '\x0b' || c == '\x0c' || c == '\r'

/-- The character is outside ASCII. -/
def isForeign (c : Char) : Bool := 128 ≤ c.toNat

/-- Reads bytes from a text whose first character has the given position. -/
def scan : Nat → List Char → Except Fault Bytes
  | _, [] => .ok []
  | i, c :: rest =>
    if isBlank c then scan (i + 1) rest
    else
      match value? c with
      | none => .error (.hexDigit i)
      | some high =>
        match rest with
        | [] => .error (.hexDigit (i + 1))
        | d :: rest' =>
          match value? d with
          | none => .error (.hexDigit (i + 1))
          | some low =>
            (scan (i + 2) rest').map (fun b => UInt8.ofNat (16 * high + low) :: b)

/-- The bytes written by a text without a mark. -/
def parseList (text : List Char) : Except Fault Bytes :=
  match text.findIdx? isForeign with
  | some i => .error (.hexDigit i)
  | none => scan 0 text

/-- The bytes written by a text, with or without a mark. -/
def parse (text : String) : Except Fault Bytes := parseList (dropMarkList text.toList)

/-- The digest written by a text. -/
def parseDigest (text : String) : Except Fault Digest :=
  match parse text with
  | .error f => .error f
  | .ok b => Digest.ofBytes b

end Patricia.Hex
