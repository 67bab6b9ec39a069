/-
Doubles as exact numbers. A finite double is a significand below `2 ^ 53` times a power of two, and
`nearest` goes the other way: it rounds an exact ratio of natural numbers to the double closest to
it, a tie to the even significand. Reading a decimal, taking a remainder and writing the shortest
digits all go through these two functions, so they involve no rounding but the one that is meant.
-/

namespace GraphPatterns.Number

/-- What a double stands for. -/
inductive Magnitude where
  | notNumber
  | infinite
  /-- `significand * 2 ^ exponent`. -/
  | finite (significand : Nat) (exponent : Int)

/-- The least power of two that a double counts in. -/
def leastExponent : Int := -1074

/-- The number of fractions that 52 bits hold: `2 ^ 52`. -/
def fractionCount : Nat := 4503599627370496

/-- The sign bit: `2 ^ 63`. -/
def signBit : Nat := 9223372036854775808

/-- Whether the sign bit of a double is set; zero and infinity have a sign too. -/
def isNegative (x : Float) : Bool := x.toBits.toNat / signBit == 1

/-- The number without its sign. -/
def magnitude (x : Float) : Magnitude :=
  let bits := x.toBits.toNat % signBit
  let field := bits / fractionCount
  let fraction := bits % fractionCount
  if field = 2047 then
    if fraction = 0 then .infinite else .notNumber
  else if field = 0 then .finite fraction leastExponent
  else .finite (fraction + fractionCount) (leastExponent + (field - 1 : Nat))

/-- The double with the given sign and the given other 63 bits. -/
def ofBits (negative : Bool) (bits : Nat) : Float :=
  Float.ofBits (UInt64.ofNat (if negative then signBit + bits else bits))

/-- The 63 bits of infinity. -/
def infinityBits : Nat := 2047 * fractionCount

/-- The quotient rounded to the nearest natural number, a tie to the even one. -/
def roundQuotient (num den : Nat) : Nat :=
  let q := num / den
  let twice := 2 * (num % den)
  if twice < den then q else if den < twice then q + 1 else q + q % 2

/-- A ratio times a power of two, again as a ratio. -/
def scaled (num den : Nat) (power : Int) : Nat × Nat :=
  if 0 ≤ power then (num * Nat.pow 2 power.toNat, den) else (num, den * Nat.pow 2 (-power).toNat)

/-- The largest power of two that does not exceed the ratio `num / den`. -/
def binaryOrder (num den : Nat) : Int :=
  let guess : Int := num.log2 - den.log2
  let (n, d) := scaled num den (-guess)
  if d ≤ n then guess else guess - 1

/-- The 63 bits of the double nearest to `num / den`. A significand that rounds up to the next power
of two carries into the exponent field, which is the right place for it. -/
def nearestBits (num den : Nat) : Nat :=
  if num = 0 then 0
  else
    let exponent := max (binaryOrder num den - 52) leastExponent
    let (n, d) := scaled num den (-exponent)
    min infinityBits ((exponent - leastExponent).toNat * fractionCount + roundQuotient n d)

/-- The double nearest to `num / den`, with a sign. -/
def nearest (negative : Bool) (num den : Nat) : Float := ofBits negative (nearestBits num den)

/-- The double nearest to `m * 10 ^ e`. Numbers far outside the range of doubles are not expanded. -/
def ofDecimal (negative : Bool) (m : Nat) (e : Int) : Float :=
  let size : Int := (Nat.toDigits 10 m).length + e
  if m = 0 ∨ size < -400 then ofBits negative 0
  else if 400 < size then ofBits negative infinityBits
  else if 0 ≤ e then nearest negative (m * Nat.pow 10 e.toNat) 1
  else nearest negative m (Nat.pow 10 (-e).toNat)

/-- The remainder of a division truncated toward zero: exact, with the sign of the dividend. -/
def remainder (x y : Float) : Float :=
  match magnitude x, magnitude y with
  | .finite m e, .finite n f =>
    if n = 0 then 0.0 / 0.0
    else
      let low := min e f
      let r := (m * Nat.pow 2 (e - low).toNat) % (n * Nat.pow 2 (f - low).toNat)
      let (num, den) := scaled r 1 low
      nearest (isNegative x) num den
  | .finite _ _, .infinite => x
  | _, _ => 0.0 / 0.0

end GraphPatterns.Number
