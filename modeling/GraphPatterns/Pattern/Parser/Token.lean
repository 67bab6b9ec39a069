/-
The tokens of pattern texts. A parser takes the text that is left and gives back what it read with the
text that is left after it, or the reason why it cannot read with the text at which it stopped. Every
token may be preceded by blanks and comments; a token that is not there leaves the text as it is.
-/
import GraphPatterns.Number.Decimal
import GraphPatterns.Text.Blank
import GraphPatterns.Text.Letters
import GraphPatterns.Text.Quoted

namespace GraphPatterns.Parser

/-- Why a text is not a pattern. -/
inductive Problem where
  | expectedChar (c : Char) (found : Option Char)
  | expectedText (t : String)
  | expectedKeyword (keyword : String)
  | expectedIdentifier
  | expectedInteger
  | expectedNumber
  | expectedQuote
  | expectedEdge
  | invalidInteger
  | invalidNumber (text : List Char)
  | unclosedString
  | invalidValue
  | invalidQuantifier
  /-- An edge pattern that is opened in one way and closed in another. -/
  | unmatchedEdge (opening : String)
  | expectedPath
  | mixedAlternatives
  /-- Text after the end of the pattern, of which the first characters are kept. -/
  | unexpectedInput (start : List Char)
deriving DecidableEq

def Problem.message : Problem → String
  | .expectedChar c found =>
    let shown :=
      match found with
      | none => "None"
      | some d => "Some(" ++ Text.quoted d ++ ")"
    "Expected '" ++ c.toString ++ "', got " ++ shown
  | .expectedText t => "Expected '" ++ t ++ "'"
  | .expectedKeyword keyword => "Expected keyword '" ++ keyword ++ "'"
  | .expectedIdentifier => "Expected identifier"
  | .expectedInteger => "Expected integer"
  | .expectedNumber => "Expected number"
  | .expectedQuote => "Expected string quote"
  | .expectedEdge => "Expected edge pattern"
  | .invalidInteger => "Invalid integer"
  | .invalidNumber text => "Invalid number '" ++ String.ofList text ++ "'"
  | .unclosedString => "Unclosed string"
  | .invalidValue => "Invalid property value"
  | .invalidQuantifier => "Invalid quantifier"
  | .unmatchedEdge opening =>
    "Edge pattern opened with '" ++ opening ++ "[' has no matching terminator"
  | .expectedPath => "Expected '(' to start path pattern"
  | .mixedAlternatives => "Cannot mix '|' and '|+|' without parentheses"
  | .unexpectedInput start => "Unexpected input '" ++ String.ofList start ++ "'"

/-- A problem and the text at which it arose. -/
structure Failure where
  problem : Problem
  rest : List Char

/-- Reads something off the front of a text. -/
abbrev Parse (α : Type) := List Char → Except Failure (α × List Char)

def fail {α : Type} (problem : Problem) (rest : List Char) : Except Failure α :=
  .error ⟨problem, rest⟩

/-! ## Blanks and comments -/

/-- What is being skipped: blanks, a comment to the end of the line, or one to its closing mark. -/
inductive Gap where
  | blanks
  | line
  | block

/-- Drops blanks and comments. A comment that is not closed reaches to the end. -/
def skipFrom : Gap → List Char → List Char
  | .blanks, '/' :: '/' :: rest => skipFrom .line rest
  | .blanks, '/' :: '*' :: rest => skipFrom .block rest
  | .blanks, c :: rest => if Text.isBlank c then skipFrom .blanks rest else c :: rest
  | .line, '\n' :: rest => skipFrom .blanks rest
  | .line, _ :: rest => skipFrom .line rest
  | .block, '*' :: '/' :: rest => skipFrom .blanks rest
  | .block, _ :: rest => skipFrom .block rest
  | _, [] => []

/-- Drops blanks and comments at the front of a text. -/
def skip (s : List Char) : List Char := skipFrom .blanks s

/-! ## Characters and keywords -/

/-- The text after a character, if it comes next. -/
def char? (c : Char) (s : List Char) : Option (List Char) :=
  match skip s with
  | d :: rest => if d = c then some rest else none
  | [] => none

/-- The text after a given text, if it comes next. -/
def text? (t : String) (s : List Char) : Option (List Char) := t.toList.isPrefixOf? (skip s)

/-- Whether a character comes next. -/
def isAt (c : Char) (s : List Char) : Bool := (skip s).head? == some c

/-- Whether a digit comes next. -/
def isAtDigit (s : List Char) : Bool := (skip s).head?.any Char.isDigit

def isNameStart (c : Char) : Bool := Text.isLetter c || c == '_'

def isNamePart (c : Char) : Bool := Text.isLetterOrNumber c || c == '_'

/-- Whether a name comes next. -/
def isAtName (s : List Char) : Bool := (skip s).head?.any isNameStart

/-- Letters `A` to `Z` and `a` to `z` taken alike. -/
def sameLetters (s t : List Char) : Bool := s.map Char.toLower == t.map Char.toLower

/-- The text after a keyword, if it comes next as a whole word, in any case of letters. -/
def keyword? (keyword : String) (s : List Char) : Option (List Char) :=
  let (word, rest) := (skip s).span isNamePart
  if sameLetters word keyword.toList then some rest else none

def expectChar (c : Char) (s : List Char) : Except Failure (List Char) :=
  match char? c s with
  | some rest => .ok rest
  | none => fail (.expectedChar c (skip s).head?) (skip s)

def expectKeyword (keyword : String) (s : List Char) : Except Failure (List Char) :=
  match keyword? keyword s with
  | some rest => .ok rest
  | none => fail (.expectedKeyword keyword) (skip s)

/-! ## Names, numbers and strings -/

def identifier : Parse String := fun s =>
  match skip s with
  | c :: rest =>
    if isNameStart c then
      let (more, rest) := rest.span isNamePart
      .ok (String.ofList (c :: more), rest)
    else fail .expectedIdentifier (c :: rest)
  | [] => fail .expectedIdentifier []

/-- Digits as a number of at most 64 bits. -/
def integer : Parse Nat := fun s =>
  let (digits, rest) := Number.spanDigits (skip s)
  if digits.isEmpty then fail .expectedInteger rest
  else
    match Number.readWord? digits with
    | some n => .ok (n, rest)
    | none => fail .invalidInteger rest

/-- What a letter after a backslash stands for. -/
def escaped : Char → Char
  | 'n' => '\n'
  | 't' => '\t'
  | 'r' => '\r'
  | c => c

/-- The characters of a string up to the closing quote. -/
def stringBody (quote : Char) : Parse (List Char)
  | [] => fail .unclosedString []
  | c :: rest =>
    if c = quote then .ok ([], rest)
    else if c = '\\' then
      match rest with
      | [] => fail .unclosedString []
      | d :: rest => (stringBody quote rest).map fun (cs, rest) => (escaped d :: cs, rest)
    else (stringBody quote rest).map fun (cs, rest) => (c :: cs, rest)

/-! ## Repetition -/

/-- Reads items until a closing character comes next; items are separated by commas, and a comma may
stand after the last one. The closing character is not read. -/
def itemsUntil {α : Type} (close : Char) (item : Parse α) : (bound : Nat) → Parse (List α)
  | 0, s => .ok ([], s)
  | bound + 1, s =>
    if isAt close s then .ok ([], s)
    else do
      let (a, s) ← item s
      match char? ',' s with
      | none => return ([a], s)
      | some s =>
        let (as, s) ← itemsUntil close item bound s
        return (a :: as, s)

/-- Reads further items for as long as a separator comes next. -/
def more {α : Type} (separator : List Char → Option (List Char)) (item : Parse α) :
    (bound : Nat) → Parse (List α)
  | 0, s => .ok ([], s)
  | bound + 1, s =>
    match separator s with
    | none => .ok ([], s)
    | some s => do
      let (a, s) ← item s
      let (as, s) ← more separator item bound s
      return (a :: as, s)

/-- Reads one item or more. -/
def separated {α : Type} (separator : List Char → Option (List Char)) (item : Parse α) :
    Parse (List α) := fun s => do
  let (a, s) ← item s
  let (as, s) ← more separator item s.length s
  return (a :: as, s)

end GraphPatterns.Parser
