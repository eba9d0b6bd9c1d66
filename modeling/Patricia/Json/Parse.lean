import Patricia.Hex.Basic
import Patricia.Json.Value

/-
  Reading JSON.

  The grammar is that of the standard, with the three further literals `NaN`, `Infinity` and
  `-Infinity`. Blanks are space, tab, line feed and carriage return. A string holds no control
  characters; two escapes that form a surrogate pair are one character, and an escape that is one
  half only reads as the replacement character.

  A reader has limits: values that are nested deeper and whole numbers with more digits are not
  read, however they go on. The fault that is met first is told.

  Every function takes text from the front and returns what is left. A value is at most as deep
  as its text is long, which bounds the recursion.
-/

namespace Patricia.JsonText

/-- What a reader can take. -/
structure Limits where
  /-- How deep lists and objects may be nested. -/
  nesting : Nat
  /-- How many digits a whole number may have. -/
  digits : Nat

/-- Why a text is not read. -/
inductive Unread
  | malformed
  | tooDeep
  | longNumber (limit digits : Nat)
deriving DecidableEq, Repr

/-- What is found at the front of a text, and what is left of it. -/
abbrev Found (α : Type) : Type := Except Unread (α × List Char)

/-- A blank between tokens. -/
def isBlank (c : Char) : Bool := c == ' ' || c == '\t' || c == '\n' || c == '\r'

/-- The text from its first character that is no blank. -/
def skipBlanks (text : List Char) : List Char := text.dropWhile isBlank

/-! ## Strings -/

/-- The code unit written by four hexadecimal digits. -/
def unit? (a b c d : Char) : Option Nat :=
  match Hex.value? a, Hex.value? b, Hex.value? c, Hex.value? d with
  | some w, some x, some y, some z => some (4096 * w + 256 * x + 16 * y + z)
  | _, _, _, _ => none

/-- What a letter behind a backslash stands for. -/
def escaped? : Char → Option Char
  | '"' => some '"'
  | '\\' => some '\\'
  | '/' => some '/'
  | 'b' => some '\x08'
  | 'f' => some '\x0c'
  | 'n' => some '\n'
  | 'r' => some '\r'
  | 't' => some '\t'
  | _ => none

/-- Code points of a string up to its closing quote, halves of surrogate pairs still apart, and
the text behind the quote. -/
def scanString : List Char → Option (List Nat × List Char)
  | [] => none
  | '"' :: rest => some ([], rest)
  | '\\' :: 'u' :: a :: b :: c :: d :: rest =>
    match unit? a b c d, scanString rest with
    | some n, some (ns, rest') => some (n :: ns, rest')
    | _, _ => none
  | '\\' :: e :: rest =>
    match escaped? e, scanString rest with
    | some c, some (ns, rest') => some (c.toNat :: ns, rest')
    | _, _ => none
  | c :: rest =>
    if c < ' ' then none
    else (scanString rest).map (fun r => (c.toNat :: r.1, r.2))

/-- The first half of a surrogate pair. -/
def isHighHalf (n : Nat) : Bool := 0xD800 ≤ n && n < 0xDC00

/-- The second half of a surrogate pair. -/
def isLowHalf (n : Nat) : Bool := 0xDC00 ≤ n && n < 0xE000

/-- The character of a code point; a half of a pair is none. -/
def character (n : Nat) : Char := if n.isValidChar then Char.ofNat n else '\ufffd'

/-- Joins surrogate pairs. -/
def joinPairs : List Nat → List Char
  | [] => []
  | [n] => [character n]
  | high :: low :: rest =>
    if isHighHalf high && isLowHalf low then
      character (0x10000 + 1024 * (high - 0xD800) + (low - 0xDC00)) :: joinPairs rest
    else character high :: joinPairs (low :: rest)

/-- A string behind its opening quote. -/
def stringTail (text : List Char) : Found String :=
  match scanString text with
  | none => .error .malformed
  | some (ns, rest) => .ok (String.ofList (joinPairs ns), rest)

/-! ## Numbers -/

/-- The number with these decimal digits. -/
def ofDigits (ds : List Char) : Nat := ds.foldl (fun n d => 10 * n + (d.toNat - '0'.toNat)) 0

/-- The digits at the front, and the rest. -/
def spanDigits (text : List Char) : List Char × List Char :=
  (text.takeWhile Char.isDigit, text.dropWhile Char.isDigit)

/-- The digits of a fraction, if a point and a digit come first. -/
def fraction : List Char → List Char × List Char
  | '.' :: rest =>
    match spanDigits rest with
    | ([], _) => ([], '.' :: rest)
    | found => found
  | text => ([], text)

/-- A power of ten, if the letter `e` and a digit, or a sign and a digit, come first. -/
def power (text : List Char) : Int × List Char :=
  match text with
  | e :: rest =>
    if e == 'e' || e == 'E' then
      let negative := rest.head? == some '-'
      let signed := negative || rest.head? == some '+'
      match spanDigits (if signed then rest.drop 1 else rest) with
      | ([], _) => (0, text)
      | (ds, rest') => (if negative then -(ofDigits ds : Int) else (ofDigits ds : Int), rest')
    else (0, text)
  | [] => (0, [])

/-- The whole digits of a number: a zero alone, or digits that start with another. -/
def wholeDigits : List Char → Option (List Char × List Char)
  | '0' :: rest => some (['0'], rest)
  | text =>
    match spanDigits text with
    | ([], _) => none
    | found => some found

/-- A number without its sign. It is whole if neither a fraction nor a power follows its digits. -/
def unsigned (limits : Limits) (negative : Bool) (text : List Char) : Found Json.Number :=
  match wholeDigits text with
  | none => .error .malformed
  | some (whole, rest) =>
    let frac := fraction rest
    let pow := power frac.2
    if limits.digits < whole.length ∧ pow.2.length = rest.length then
      .error (.longNumber limits.digits whole.length)
    else
      let m : Int := ofDigits (whole ++ frac.1)
      .ok (Json.Number.decimal (if negative then -m else m) (pow.1 - frac.1.length), pow.2)

/-- A number, or one of the literals for values without digits. -/
def number (limits : Limits) : List Char → Found Json.Number
  | 'N' :: 'a' :: 'N' :: rest => .ok (.nan, rest)
  | 'I' :: 'n' :: 'f' :: 'i' :: 'n' :: 'i' :: 't' :: 'y' :: rest => .ok (.infinity false, rest)
  | '-' :: 'I' :: 'n' :: 'f' :: 'i' :: 'n' :: 'i' :: 't' :: 'y' :: rest =>
    .ok (.infinity true, rest)
  | '-' :: rest => unsigned limits true rest
  | text => unsigned limits false text

/-! ## Values -/

section Values

variable (limits : Limits)

mutual
/-- A value at the front of a text, which may be nested in as many levels. -/
def value : Nat → Nat → List Char → Found Json
  | 0, _, _ => .error .malformed
  | fuel + 1, levels, text =>
    match text, levels with
    | '"' :: rest, _ => (stringTail rest).map (fun r => (.text r.1, r.2))
    | 'n' :: 'u' :: 'l' :: 'l' :: rest, _ => .ok (.null, rest)
    | 't' :: 'r' :: 'u' :: 'e' :: rest, _ => .ok (.bool true, rest)
    | 'f' :: 'a' :: 'l' :: 's' :: 'e' :: rest, _ => .ok (.bool false, rest)
    | '[' :: _, 0 => .error .tooDeep
    | '[' :: rest, levels + 1 =>
      match skipBlanks rest with
      | ']' :: rest' => .ok (.list [], rest')
      | inner => (elements fuel levels inner).map (fun r => (.list r.1, r.2))
    | '\x7b' :: _, 0 => .error .tooDeep
    | '\x7b' :: rest, levels + 1 =>
      match skipBlanks rest with
      | '\x7d' :: rest' => .ok (.object [], rest')
      | inner => (members fuel levels inner).map (fun r => (.object r.1, r.2))
    | _, _ => (number limits text).map (fun r => (.number r.1, r.2))

/-- The elements of a list, at least one, and the text behind its bracket. -/
def elements : Nat → Nat → List Char → Found (List Json)
  | 0, _, _ => .error .malformed
  | fuel + 1, levels, text =>
    match value fuel levels text with
    | .error f => .error f
    | .ok (v, rest) =>
      match skipBlanks rest with
      | ']' :: rest' => .ok ([v], rest')
      | ',' :: rest' =>
        (elements fuel levels (skipBlanks rest')).map (fun r => (v :: r.1, r.2))
      | _ => .error .malformed

/-- The fields of an object, at least one, and the text behind its brace. -/
def members : Nat → Nat → List Char → Found (List (String × Json))
  | 0, _, _ => .error .malformed
  | fuel + 1, levels, text =>
    match text with
    | '"' :: afterQuote =>
      match stringTail afterQuote with
      | .error f => .error f
      | .ok (name, rest) =>
        match skipBlanks rest with
        | ':' :: rest' =>
          match value fuel levels (skipBlanks rest') with
          | .error f => .error f
          | .ok (v, rest'') =>
            match skipBlanks rest'' with
            | '\x7d' :: behind => .ok ([(name, v)], behind)
            | ',' :: behind =>
              (members fuel levels (skipBlanks behind)).map (fun r => ((name, v) :: r.1, r.2))
            | _ => .error .malformed
        | _ => .error .malformed
    | _ => .error .malformed
end

end Values

end Patricia.JsonText

namespace Patricia

/-- The value that a text consists of, blanks around it apart. -/
def Json.parse (limits : JsonText.Limits) (text : String) : Except JsonText.Unread Json :=
  let chars := text.toList
  match JsonText.value limits (2 * chars.length + 2) limits.nesting (JsonText.skipBlanks chars) with
  | .ok (v, rest) => if (JsonText.skipBlanks rest).isEmpty then .ok v else .error .malformed
  | .error f => .error f

end Patricia
