/-
Reading numbers. A decimal is a sign, digits, a fraction and an exponent; `inf`, `infinity` and `nan`
are read in any case of letters. The result is the double nearest to the number that is written.
-/
import GraphPatterns.Number.Binary64

namespace GraphPatterns.Number

/-- The number that decimal digits denote. -/
def digitsValue (digits : List Char) : Nat :=
  digits.foldl (fun n c => 10 * n + (c.toNat - '0'.toNat)) 0

/-- Splits the digits off the front of a text. -/
def spanDigits (s : List Char) : List Char × List Char := s.span Char.isDigit

/-- Reads an optional sign; the first component is whether the number is negative. -/
def readSign : List Char → Bool × List Char
  | '-' :: rest => (true, rest)
  | '+' :: rest => (false, rest)
  | s => (false, s)

/-- Reads an exponent, which ends the number; none is written where the number ends before it. -/
def readExponent? : List Char → Option Int
  | [] => some 0
  | c :: rest =>
    if c = 'e' ∨ c = 'E' then
      let (negative, digits) := readSign rest
      if digits.isEmpty || !digits.all Char.isDigit then none
      else
        -- Beyond nine digits the exponent outweighs any text of digits.
        let significant := digits.dropWhile (· == '0')
        let size := if 9 < significant.length then 1000000000 else digitsValue significant
        some (if negative then -(size : Int) else size)
    else none

/-- Reads digits, a fraction and an exponent, of which the digits or the fraction may be missing. -/
def readUnsigned? (negative : Bool) (s : List Char) : Option Float :=
  let (whole, rest) := spanDigits s
  let (fraction, rest) :=
    match rest with
    | '.' :: more => spanDigits more
    | _ => ([], rest)
  if whole.isEmpty && fraction.isEmpty then none
  else
    (readExponent? rest).map fun e =>
      ofDecimal negative (digitsValue (whole ++ fraction)) (e - fraction.length)

/-- Reads a double. -/
def readFloat? (s : List Char) : Option Float :=
  let (negative, rest) := readSign s
  let name := String.ofList (rest.map Char.toLower)
  if name = "inf" ∨ name = "infinity" then some (ofBits negative infinityBits)
  else if name = "nan" then some (0.0 / 0.0)
  else readUnsigned? negative rest

/-- Reads a whole number in the range of 64-bit integers. -/
def readInt64? (s : List Char) : Option Int64 :=
  let (negative, digits) := readSign s
  if digits.isEmpty || !digits.all Char.isDigit then none
  else
    let n := digitsValue digits
    let i : Int := if negative then -n else n
    if Int64.minValue.toInt ≤ i ∧ i ≤ Int64.maxValue.toInt then some (Int64.ofInt i) else none

/-- The largest number that 64 bits without a sign hold. -/
def maxWord : Nat := 18446744073709551615

/-- Reads a number of digits only, at most `maxWord`. -/
def readWord? (digits : List Char) : Option Nat :=
  if digits.isEmpty || !digits.all Char.isDigit then none
  else
    let n := digitsValue digits
    if n ≤ maxWord then some n else none

end GraphPatterns.Number
