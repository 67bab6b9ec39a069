/-
The tokens of pattern texts, read at a byte position. A look ahead leaves the position as it is. What is
read is passed by its width: one byte for a character that is known, the bytes of a keyword once its letters
have been compared, and the offset of what was searched for in a comment.
-/
import GraphPatterns.Pattern.Scan.Basic

namespace GraphPatterns.Scan

open GraphPatterns.Parser (isNameStart isNamePart isNumberPart sameLetters escaped)

/-! ## Looking ahead -/

def peekChar : Scan (Option Char) := return (← rest).head?

def isNext (c : Char) : Scan Bool := return (← peekChar) == some c

def isNameNext : Scan Bool := return (← peekChar).any isNameStart

def isDigitNext : Scan Bool := return (← peekChar).any Char.isDigit

def isTextNext (t : String) : Scan Bool := return t.toList.isPrefixOf (← rest)

/-- Whether a keyword comes next as a whole word. -/
def isKeywordNext (keyword : String) : Scan Bool := do
  let s ← rest
  let stop := (findChar? (fun c => !isNamePart c) s).getD (byteCount s)
  return sameLetters (← cut (sliceTo? s stop)) keyword.toList

/-! ## Blanks and comments -/

/-- Passes a comment to the end of the line, or to the end of the text. -/
def skipLine : Scan Unit := do
  match findChar? (· == '\n') (← rest) with
  | some offset => advance offset
  | none => moveTo (byteCount (← source).text)

/-- Passes a comment with its closing mark, or to the end of the text. The mark is searched for after the
two bytes that open the comment. -/
def skipBlock : Scan Unit := do
  match findText? "*/".toList (← cut (sliceFrom? (← source).text ((← position) + 2))) with
  | some offset => advance (offset + 4)
  | none => moveTo (byteCount (← source).text)

/-- Passes one blank or one comment, or ends the loop. -/
def skipOne : Scan (Unit ⊕ Unit) := do
  match ← peekChar with
  | none => return .inr ()
  | some c =>
    if Text.isBlank c then
      advance c.utf8Size
      return .inl ()
    else if ← isTextNext "//" then
      skipLine
      return .inl ()
    else if ← isTextNext "/*" then
      skipBlock
      return .inl ()
    else return .inr ()

def skipBlanks : Scan Unit := passing <| loop (fun _ => skipOne) ()

/-! ## Characters, texts and keywords -/

/-- Passes a token of a width if it comes next. -/
def tryToken (isThere : Scan Bool) (width : Nat) : Scan Bool := passing do
  skipBlanks
  if ← isThere then
    advance width
    return true
  else return false

def tryChar (c : Char) : Scan Bool := tryToken (isNext c) c.utf8Size

def tryText (t : String) : Scan Bool := tryToken (isTextNext t) (byteCount t.toList)

def tryKeyword (keyword : String) : Scan Bool :=
  tryToken (isKeywordNext keyword) (byteCount keyword.toList)

def expectChar (c : Char) : Scan Unit := passing do
  if ← tryChar c then return () else fail (.expectedChar c (← peekChar))

def expectText (t : String) : Scan Unit := passing do
  if ← tryText t then return () else fail (.expectedText t)

def expectKeyword (keyword : String) : Scan Unit := passing do
  if ← tryKeyword keyword then return () else fail (.expectedKeyword keyword)

/-- The first of two tokens, or else the second one. -/
def tryEither (token other : Scan Bool) : Scan Bool := do if ← token then return true else other

/-- The first of several tokens that comes next. -/
def firstOf {α : Type} : List (Scan Bool × α) → Scan (Option α)
  | [] => return none
  | (token, a) :: more => do if ← token then return some a else firstOf more

/-! ## Names, numbers and strings -/

/-- Passes characters of a kind, each by its width. -/
def skipWhile (p : Char → Bool) (width : Char → Nat) : Scan Unit := loop (fun _ => do
  match ← peekChar with
  | some c =>
    if p c then
      advance (width c)
      return .inl ()
    else return .inr ()
  | none => return .inr ()) ()

def identifier : Scan String := passing do
  skipBlanks
  let start ← position
  match ← peekChar with
  | some c => if isNameStart c then advance c.utf8Size else fail .expectedIdentifier
  | none => fail .expectedIdentifier
  skipWhile isNamePart Char.utf8Size
  return String.ofList (← since start)

/-- Digits as a number of at most 64 bits. -/
def integer : Scan Nat := passing do
  skipBlanks
  let start ← position
  skipWhile Char.isDigit fun _ => 1
  if (← position) = start then fail .expectedInteger
  else
    match Number.readWord? (← since start) with
    | some n => return n
    | none => fail .invalidInteger

/-- The text of a number. -/
def numberText : Scan (List Char) := passing do
  skipBlanks
  let start ← position
  if ← isNext '-' then advance 1
  skipWhile isNumberPart fun _ => 1
  if (← position) = start then fail .expectedNumber else since start

/-- Reads one character of a string, or the quote that closes it. -/
def stringChar (quote : Char) (chars : List Char) : Scan (List Char ⊕ List Char) := do
  match ← peekChar with
  | none => fail .unclosedString
  | some c =>
    if c = quote then
      advance 1
      return .inr chars
    else if c = '\\' then
      advance 1
      match ← peekChar with
      | some d =>
        advance d.utf8Size
        return .inl (chars ++ [escaped d])
      | none => return .inl chars
    else
      advance c.utf8Size
      return .inl (chars ++ [c])

/-- A string, where a quote comes next. -/
def string : Scan String := passing do
  match ← peekChar with
  | some quote =>
    if quote = '"' ∨ quote = '\'' then
      advance 1
      return String.ofList (← loop (stringChar quote) [])
    else fail .expectedQuote
  | none => fail .expectedQuote

/-! ## Lists -/

/-- Reads items until a closing character comes next; items are separated by commas, and a comma may
stand after the last one. The closing character is not read. -/
def itemsUntil {α : Type} (close : Char) (item : Scan α) : Scan (List α) := passing <|
  loop (fun items => do
    skipBlanks
    if ← isNext close then return .inr items
    else
      let items := items ++ [← item]
      if ← tryChar ',' then return .inl items else return .inr items) []

/-- Reads one item, and further ones for as long as a separator comes next. -/
def separated {α : Type} (separator : Scan Bool) (item : Scan α) : Scan (List α) := passing do
  let first ← item
  loop (fun items => do
    if ← separator then return .inl (items ++ [← item]) else return .inr items) [first]

end GraphPatterns.Scan
