/-
Reading JSON. The grammar is the strict one: no trailing commas, no leading zeros or plus signs, no
control characters in strings, nothing but blanks around the value.
-/
import GraphPatterns.Json.Basic

namespace GraphPatterns.Json

/-- The blanks of JSON. -/
def isBlank (c : Char) : Bool := c == ' ' || c == '\t' || c == '\n' || c == '\r'

def skipBlanks (s : List Char) : List Char := s.dropWhile isBlank

/-! ## Strings -/

def hexValue? (c : Char) : Option Nat :=
  if c.isDigit then some (c.toNat - '0'.toNat)
  else if 'a' ≤ c ∧ c ≤ 'f' then some (c.toNat - 'a'.toNat + 10)
  else if 'A' ≤ c ∧ c ≤ 'F' then some (c.toNat - 'A'.toNat + 10)
  else none

/-- Four hexadecimal digits. -/
def hexUnit? (a b c d : Char) : Option Nat := do
  let a ← hexValue? a
  let b ← hexValue? b
  let c ← hexValue? c
  let d ← hexValue? d
  return ((a * 16 + b) * 16 + c) * 16 + d

/-- The character that a one-letter escape stands for. -/
def escapeChar? : Char → Option Char
  | '"' => some '"'
  | '\\' => some '\\'
  | '/' => some '/'
  | 'b' => some '\x08'
  | 'f' => some '\x0c'
  | 'n' => some '\n'
  | 'r' => some '\r'
  | 't' => some '\t'
  | _ => none

/-- A piece of a string: a character, or a code unit written in hexadecimal. -/
inductive Piece where
  | char (c : Char)
  | unit (u : Nat)

/-- The pieces of a string up to its closing quote, and the text after it. -/
def readPieces? : List Char → Option (List Piece × List Char)
  | [] => none
  | '"' :: rest => some ([], rest)
  | '\\' :: 'u' :: a :: b :: c :: d :: rest => do
    let u ← hexUnit? a b c d
    let (pieces, rest) ← readPieces? rest
    return (.unit u :: pieces, rest)
  | '\\' :: e :: rest => do
    let c ← escapeChar? e
    let (pieces, rest) ← readPieces? rest
    return (.char c :: pieces, rest)
  | c :: rest =>
    if c.toNat < 32 then none
    else do
      let (pieces, rest) ← readPieces? rest
      return (.char c :: pieces, rest)

/-- The characters of the pieces: a high and a low surrogate are one character, and neither may stand
alone. -/
def joinPieces? : List Piece → Option (List Char)
  | [] => some []
  | .char c :: rest => (joinPieces? rest).map (c :: ·)
  | .unit u :: .unit v :: rest =>
    if 0xD800 ≤ u ∧ u < 0xDC00 then
      if 0xDC00 ≤ v ∧ v < 0xE000 then
        (joinPieces? rest).map (Char.ofNat (0x10000 + (u - 0xD800) * 0x400 + (v - 0xDC00)) :: ·)
      else none
    else if 0xDC00 ≤ u ∧ u < 0xE000 then none
    else (joinPieces? (.unit v :: rest)).map (Char.ofNat u :: ·)
  | .unit u :: rest =>
    if 0xD800 ≤ u ∧ u < 0xE000 then none
    else (joinPieces? rest).map (Char.ofNat u :: ·)

/-- Reads a string after its opening quote. -/
def readString? (s : List Char) : Option (Option String × List Char) := do
  let (pieces, rest) ← readPieces? s
  return ((joinPieces? pieces).map String.ofList, rest)

/-! ## Numbers -/

/-- Reads one digit or more. -/
def readDigits? (s : List Char) : Option (List Char × List Char) :=
  let (digits, rest) := Number.spanDigits s
  if digits.isEmpty then none else some (digits, rest)

/-- Reads the digits before the point: a zero, or digits that start with none. -/
def readWhole? (s : List Char) : Option (List Char × List Char) := do
  let (digits, rest) ← readDigits? s
  if digits.head? = some '0' ∧ digits.length ≠ 1 then none else return (digits, rest)

def readFraction? : List Char → Option (List Char × List Char)
  | '.' :: rest => readDigits? rest
  | s => some ([], s)

def readPower? (s : List Char) : Option (Option (Bool × List Char) × List Char) :=
  match s with
  | c :: rest =>
    if c = 'e' ∨ c = 'E' then do
      let (negative, rest) := Number.readSign rest
      let (digits, rest) ← readDigits? rest
      return (some (negative, digits), rest)
    else some (none, s)
  | [] => some (none, s)

def readNumber? (s : List Char) : Option (Json × List Char) := do
  let (negative, rest) :=
    match s with
    | '-' :: rest => (true, rest)
    | _ => (false, s)
  let (whole, rest) ← readWhole? rest
  let (fraction, rest) ← readFraction? rest
  let (exponent, rest) ← readPower? rest
  return (.number ⟨negative, whole, fraction, exponent⟩, rest)

/-! ## Values -/

/-- Reads the literals, numbers and strings. -/
def readScalar? : List Char → Option (Json × List Char)
  | 'n' :: rest => (['u', 'l', 'l'].isPrefixOf? rest).map fun r => (.null, r)
  | 't' :: rest => (['r', 'u', 'e'].isPrefixOf? rest).map fun r => (.bool true, r)
  | 'f' :: rest => (['a', 'l', 's', 'e'].isPrefixOf? rest).map fun r => (.bool false, r)
  | '"' :: rest => (readString? rest).map fun (s, r) => (.string s, r)
  | s => readNumber? s

mutual

/-- Reads a value. The first argument bounds how many brackets, items and fields are entered. -/
def readValue? : Nat → List Char → Option (Json × List Char)
  | 0, _ => none
  | bound + 1, s =>
    match skipBlanks s with
    | '[' :: rest =>
      match skipBlanks rest with
      | ']' :: rest => some (.array [], rest)
      | rest => (readItems? bound rest).map fun (items, r) => (.array items, r)
    | '\x7b' :: rest =>
      match skipBlanks rest with
      | '\x7d' :: rest => some (.object [], rest)
      | rest => (readFields? bound rest).map fun (fields, r) => (.object fields, r)
    | rest => readScalar? rest

/-- Reads the items of an array, one at least, and the closing bracket. -/
def readItems? : Nat → List Char → Option (List Json × List Char)
  | 0, _ => none
  | bound + 1, s => do
    let (item, rest) ← readValue? bound s
    match skipBlanks rest with
    | ',' :: rest =>
      let (items, rest) ← readItems? bound rest
      return (item :: items, rest)
    | ']' :: rest => return ([item], rest)
    | _ => none

/-- Reads the fields of an object, one at least, and the closing brace. -/
def readFields? : Nat → List Char → Option (List (Option String × Json) × List Char)
  | 0, _ => none
  | bound + 1, s =>
    match skipBlanks s with
    | '"' :: rest => do
      let (name, rest) ← readString? rest
      match skipBlanks rest with
      | ':' :: rest =>
        let (value, rest) ← readValue? bound rest
        match skipBlanks rest with
        | ',' :: rest =>
          let (fields, rest) ← readFields? bound rest
          return ((name, value) :: fields, rest)
        | '\x7d' :: rest => return ([(name, value)], rest)
        | _ => none
      | _ => none
    | _ => none

end

/-- Reads a whole text as one value. -/
def read? (s : String) : Option Json := do
  let cs := s.toList
  let (value, rest) ← readValue? (2 * cs.length + 2) cs
  if (skipBlanks rest).isEmpty then return value else none

end GraphPatterns.Json
