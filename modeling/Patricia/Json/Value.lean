/-
  JSON values.

  Numbers are kept as they are written, a decimal mantissa with a power of ten, so that reading
  loses nothing however large they are. The fields of an object are kept in order, repeated names
  included; a look-up finds the last one.
-/

namespace Patricia

namespace Json

/-- A number: `mantissa · 10 ^ exponent`, or one of the values that no digits write. -/
inductive Number
  | decimal (mantissa exponent : Int)
  | infinity (negative : Bool)
  | nan
deriving DecidableEq

end Json

/-- A JSON value. -/
inductive Json
  | null
  | bool (b : Bool)
  | number (n : Json.Number)
  | text (t : String)
  | list (items : List Json)
  | object (fields : List (String × Json))
deriving Inhabited

namespace Json

/-- The value of the last field with a name. -/
def field? (fields : List (String × Json)) (name : String) : Option Json :=
  fields.reverse.lookup name

/-! ## Truth -/

/-- The number rounds to zero as a double-precision number: half the least positive one,
`2 ^ (-1075)`, is the largest that does. Where the decimal point is moved far beyond the digits
there is nothing to compute. -/
def Number.roundsToZero (mantissa exponent : Int) : Bool :=
  let m := mantissa.natAbs
  let shift := (-exponent).toNat
  if m = 0 then true
  else if exponent ≥ 0 then false
  else if shift > m.log2 + 400 then true
  else m * Nat.pow 2 1075 ≤ Nat.pow 10 shift

/-- A value counts as true unless it is `null`, `false`, zero or empty. -/
def isTruthy : Json → Bool
  | null => false
  | bool b => b
  | number (.decimal m e) => !Number.roundsToZero m e
  | number _ => true
  | text t => !t.isEmpty
  | list items => !items.isEmpty
  | object fields => !fields.isEmpty

end Json

/-- Fails unless a value counts as true. -/
def ensure {ε : Type} (value : Json) (failure : ε) : Except ε Unit :=
  if value.isTruthy then .ok () else .error failure

end Patricia
