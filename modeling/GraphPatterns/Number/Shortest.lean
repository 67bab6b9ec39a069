/-
The shortest decimal that reads back as a given double, written in positional notation.

A finite double `m * 2 ^ q` is what every real in an interval around it rounds to; the ends belong to
the interval when `m` is even. Grids of 1, 2, ... 17 digits are tried in turn, each through the two
grid points next to the number; the first grid with a point in the interval gives the digits, the
nearer point if both are in it.
-/
import GraphPatterns.Number.Binary64

namespace GraphPatterns.Number

/-- Digits of a decimal number: `0.d₁d₂... * 10 ^ order`. -/
structure Digits where
  digits : List Char
  order : Int

/-- A natural number times a power of ten and a power of two, as a ratio. -/
def decimalRatio (n : Nat) (ten two : Int) : Nat × Nat :=
  let (a, b) := scaled n 1 two
  if 0 ≤ ten then (a * Nat.pow 10 ten.toNat, b) else (a, b * Nat.pow 10 (-ten).toNat)

/-- Whether the first ratio is below the second. -/
def ratioLt (a b : Nat × Nat) : Bool := a.1 * b.2 < b.1 * a.2

/-- The reals that round to `significand * 2 ^ exponent`, in units of a quarter of the last place. -/
structure Interval where
  low : Nat
  high : Nat
  unit : Int
  closed : Bool

/-- The rounding interval of a double. Below a power of two the neighbours are half as far. -/
def Interval.around (significand : Nat) (exponent : Int) : Interval :=
  { low := 4 * significand - (if significand = fractionCount then 1 else 2)
    high := 4 * significand + 2
    unit := exponent - 2
    closed := significand % 2 == 0 }

/-- Whether `n * 10 ^ place` lies in the interval. -/
def Interval.contains (i : Interval) (n : Nat) (place : Int) : Bool :=
  let x := decimalRatio n place 0
  let low := scaled i.low 1 i.unit
  let high := scaled i.high 1 i.unit
  if i.closed then !ratioLt x low && !ratioLt high x else ratioLt low x && ratioLt x high

/-- The least power of ten above the number `significand * 2 ^ exponent`, which is not zero. -/
def decimalOrder (significand : Nat) (exponent : Int) : Int :=
  let v := scaled significand 1 exponent
  let guess : Int := (Nat.toDigits 10 (v.1 / v.2)).length
  if v.2 ≤ v.1 then guess
  else
    -- Below one: the zeros after the point are counted on the reciprocal.
    let zeros : Int := (Nat.toDigits 10 (v.2 / v.1)).length
    if ratioLt v (decimalRatio 1 (-zeros) 0) then -zeros
    else if ratioLt v (decimalRatio 1 (1 - zeros) 0) then 1 - zeros
    else 2 - zeros

/-- The point of the grid `10 ^ place` that lies in the rounding interval: of two points the nearer
one, and the upper one at equal distance. -/
def gridPoint? (significand : Nat) (exponent place : Int) (i : Interval) : Option Nat :=
  let v := decimalRatio significand (-place) exponent
  let below := v.1 / v.2
  let inBelow := i.contains below place
  let inAbove := i.contains (below + 1) place
  let upper := v.2 ≤ 2 * (v.1 % v.2)
  if inBelow && inAbove then some (if upper then below + 1 else below)
  else if inBelow then some below
  else if inAbove then some (below + 1)
  else none

/-- Tries grids of `count` digits and more, at most `fuel` of them. -/
def firstGrid (significand : Nat) (exponent order : Int) (i : Interval) :
    (fuel count : Nat) → Nat × Int
  | 0, count => (significand, order - count)
  | fuel + 1, count =>
    let place := order - count
    match gridPoint? significand exponent place i with
    | some n => (n, place)
    | none => firstGrid significand exponent order i fuel (count + 1)

/-- The shortest digits of a double other than zero. -/
def shortest (significand : Nat) (exponent : Int) : Digits :=
  let order := decimalOrder significand exponent
  let (n, place) := firstGrid significand exponent order (.around significand exponent) 18 1
  let digits := Nat.toDigits 10 n
  { digits := (digits.reverse.dropWhile (· == '0')).reverse
    order := place + digits.length }

/-- Digits in positional notation: no exponent, and no point in a whole number. -/
def Digits.positional (d : Digits) : List Char :=
  if d.order ≤ 0 then
    ['0', '.'] ++ List.replicate (-d.order).toNat '0' ++ d.digits
  else
    let whole := d.order.toNat
    if d.digits.length ≤ whole then d.digits ++ List.replicate (whole - d.digits.length) '0'
    else d.digits.take whole ++ ['.'] ++ d.digits.drop whole

/-- A double as text: the shortest digits that read back, in positional notation. -/
def renderFloat (x : Float) : String :=
  let sign := if isNegative x then ['-'] else []
  match magnitude x with
  | .notNumber => "NaN"
  | .infinite => String.ofList (sign ++ ['i', 'n', 'f'])
  | .finite 0 _ => String.ofList (sign ++ ['0'])
  | .finite m e => String.ofList (sign ++ (shortest m e).positional)

end GraphPatterns.Number
