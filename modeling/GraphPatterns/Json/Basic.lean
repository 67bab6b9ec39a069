/-
JSON texts as trees. A number keeps its digits, because what it means depends on where it stands: the
same digits may name an integer or a double, and a number that no one asks for is never evaluated.
A string is `none` where its escapes name half of a surrogate pair; such a string may only stand in
a field that is skipped.
-/
import GraphPatterns.Number.Decimal

namespace GraphPatterns

/-- A number as it is written: sign, digits, and the fraction and exponent if there are any. -/
structure Numeral where
  negative : Bool
  whole : List Char
  fraction : List Char
  exponent : Option (Bool × List Char)

inductive Json where
  | null
  | bool (b : Bool)
  | number (n : Numeral)
  | string (s : Option String)
  | array (items : List Json)
  | object (fields : List (Option String × Json))

instance : Inhabited Json := ⟨.null⟩

namespace Json

def text (s : String) : Json := .string (some s)

def ofNat (n : Nat) : Json := .number ⟨false, Nat.toDigits 10 n, [], none⟩

def ofInt (i : Int) : Json := .number ⟨i < 0, Nat.toDigits 10 i.natAbs, [], none⟩

/-- An object with the given fields. -/
def ofFields (fields : List (String × Json)) : Json :=
  .object (fields.map fun (name, value) => (some name, value))

/-- The last field of the given name, if this is an object that has one. -/
def get? (name : String) : Json → Option Json
  | .object fields => (fields.reverse.find? (·.1 == some name)).map (·.2)
  | _ => none

def asString? : Json → Option String
  | .string s => s
  | _ => none

def asBool? : Json → Option Bool
  | .bool b => some b
  | _ => none

def asArray? : Json → Option (List Json)
  | .array items => some items
  | _ => none

end Json

/-! ## What a number means -/

namespace Numeral

/-- A number with neither fraction nor exponent. -/
def isInteger (n : Numeral) : Bool := n.fraction.isEmpty && n.exponent.isNone

/-- The number of a numeral without sign, fraction and exponent, if 64 bits hold it. -/
def asWord? (n : Numeral) : Option Nat :=
  if n.isInteger && !n.negative then Number.readWord? n.whole else none

/-- The integer of a numeral, if 64 bits with a sign hold it. Minus zero is not an integer. -/
def asInt64? (n : Numeral) : Option Int64 :=
  if n.isInteger && !(n.negative && Number.digitsValue n.whole == 0) then
    Number.readInt64? (if n.negative then '-' :: n.whole else n.whole)
  else none

/-- Adds digits to a number for as long as 64 bits hold the result; also gives the digits left. -/
def absorb (n : Nat) : List Char → Nat × List Char
  | [] => (n, [])
  | c :: rest =>
    let next := 10 * n + (c.toNat - '0'.toNat)
    if next ≤ Number.maxWord then absorb next rest else (n, c :: rest)

/-- The leading digits as far as 64 bits hold them, and the power of ten they count in. -/
def leading (n : Numeral) : Nat × Int :=
  let (high, surplus) := absorb 0 n.whole
  let (m, unread) := absorb high n.fraction
  (m, surplus.length - (n.fraction.length - unread.length : Nat))

/-- The largest exponent that is told from a larger one. -/
def maxExponent : Int := 2147483647

/-- The power of ten of the whole number, if it is not beyond all bounds. -/
def power (n : Numeral) (start : Int) : Option Int :=
  match n.exponent with
  | none => some start
  | some (negative, digits) =>
    let e : Int := Number.digitsValue digits
    if maxExponent < e then none
    else if negative then some (max (-maxExponent - 1) (start - e))
    else some (min maxExponent (start + e))

/-- A power of ten up to `10 ^ 308` as a double. -/
def tenTo (k : Nat) : Float := Number.ofDecimal false 1 k

/-- Multiplies a double by a power of ten, in steps of `10 ^ 308` for small powers. Infinity is
refused. -/
def scale? : (steps : Nat) → Float → Int → Option Float
  | 0, f, _ => some f
  | steps + 1, f, e =>
    if e.natAbs ≤ 308 then
      if 0 ≤ e then
        let r := f * tenTo e.toNat
        if r.isInf then none else some r
      else some (f / tenTo (-e).toNat)
    else if f == 0.0 then some f
    else if 0 ≤ e then none
    else scale? steps (f / tenTo 308) (e + 308)

/-- The double of a numeral: its leading digits, multiplied or divided by a power of ten. A number
too large for a double is refused. -/
def asFloat? (n : Numeral) : Option Float :=
  let (m, start) := n.leading
  let unsigned :=
    match n.power start with
    | some e => scale? 4 (Number.ofDecimal false m 0) e
    | none =>
      match n.exponent with
      | some (negative, _) => if m == 0 || negative then some 0.0 else none
      | none => none
  unsigned.map fun f => if n.negative then -f else f

end Numeral

end GraphPatterns
