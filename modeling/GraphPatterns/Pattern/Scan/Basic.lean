/-
Reading a text at a position that is counted in bytes. A text can be cut only between two characters: a
cut at any other position ends the run (`ScanOutcome.crashed`), and so does a loop or a recursion that goes on
for more rounds than are allowed (`ScanOutcome.endless`). The cursor keeps a trail of all positions at which it
stood and of all stretches that were passed.
-/
import GraphPatterns.Pattern.Parser.Path

namespace GraphPatterns

open GraphPatterns.Parser (Problem)

/-! ## Bytes of a text -/

/-- The text from a byte on. There is none from inside a character or from after the end. -/
def sliceFrom? : List Char → Nat → Option (List Char)
  | s, 0 => some s
  | [], _ + 1 => none
  | c :: s, n + 1 => if c.utf8Size ≤ n + 1 then sliceFrom? s (n + 1 - c.utf8Size) else none

/-- The first bytes of a text. They must end between two characters. -/
def sliceTo? : List Char → Nat → Option (List Char)
  | _, 0 => some []
  | [], _ + 1 => none
  | c :: s, n + 1 =>
    if c.utf8Size ≤ n + 1 then (sliceTo? s (n + 1 - c.utf8Size)).map (c :: ·) else none

/-- The text between two bytes. -/
def slice? (s : List Char) (start stop : Nat) : Option (List Char) := do
  if start ≤ stop then sliceTo? (← sliceFrom? s start) (stop - start) else none

/-- The byte at which the first character of a kind starts. -/
def findChar? (p : Char → Bool) : List Char → Option Nat
  | [] => none
  | c :: s => if p c then some 0 else (findChar? p s).map (· + c.utf8Size)

/-- The byte at which a text starts for the first time in another one. -/
def findText? (t : List Char) : List Char → Option Nat
  | [] => if t.isEmpty then some 0 else none
  | c :: s => if t.isPrefixOf (c :: s) then some 0 else (findText? t s).map (· + c.utf8Size)

/-! ## Runs -/

/-- What a cursor does. -/
inductive Event where
  | stood (position : Nat)
  /-- A parser that succeeded, or one round of a loop, went from one position to another. -/
  | passed (before after : Nat)

/-- A position in a text, and what was done on the way to it, the latest first. -/
structure TextCursor where
  position : Nat
  trail : List Event

/-- How a run ends, and where. -/
inductive ScanOutcome (α : Type) where
  | done (a : α) (c : TextCursor)
  | failed (problem : Problem) (c : TextCursor)
  /-- The text was cut at a position that is not between two characters. -/
  | crashed (c : TextCursor)
  /-- A loop or a recursion used up its rounds. -/
  | endless (c : TextCursor)

/-- What is read, and how many rounds a loop or a recursion may go on. -/
structure Source where
  text : List Char
  rounds : Nat

/-- Reads something of a source, from the position of a cursor on. -/
def Scan (α : Type) := Source → TextCursor → ScanOutcome α

namespace Scan

variable {α β : Type}

/-- One run after another. -/
def andThen (p : Scan α) (next : α → Scan β) : Scan β := fun source c =>
  match p source c with
  | .done a c => next a source c
  | .failed problem c => .failed problem c
  | .crashed c => .crashed c
  | .endless c => .endless c

instance : Monad Scan where
  pure a := fun _ c => .done a c
  bind := andThen

def fail (problem : Problem) : Scan α := fun _ c => .failed problem c

/-- Nothing comes of it: the rounds are used up. -/
def giveUp : Scan α := fun _ c => .endless c

/-- A cut of the text. -/
def cut (s : Option (List Char)) : Scan (List Char) := fun _ c =>
  match s with
  | some s => .done s c
  | none => .crashed c

def source : Scan Source := fun source c => .done source c

def position : Scan Nat := fun _ c => .done c.position c

def moveTo (p : Nat) : Scan Unit := fun _ c => .done () ⟨p, .stood p :: c.trail⟩

def advance (n : Nat) : Scan Unit := do moveTo ((← position) + n)

/-- Notes that the run went on from a position. -/
def note (before : Nat) : Scan Unit := fun _ c =>
  .done () { c with trail := .passed before c.position :: c.trail }

/-- A run whose beginning and end are noted when it succeeds. -/
def passing (p : Scan α) : Scan α := do
  let before ← position
  let a ← p
  note before
  return a

/-- A run that may fail. The cursor stays where it failed. -/
def attempt (p : Scan α) : Scan (Option α) := fun source c =>
  match p source c with
  | .done a c => .done (some a) c
  | .failed _ c => .done none c
  | .crashed c => .crashed c
  | .endless c => .endless c

/-- Rounds of a loop, until one of them ends it. -/
def loopWithin (round : β → Scan (β ⊕ α)) : (rounds : Nat) → β → Scan α
  | 0, _ => giveUp
  | rounds + 1, b => do
    match ← passing (round b) with
    | .inl b => loopWithin round rounds b
    | .inr a => return a

/-- A loop. -/
def loop (round : β → Scan (β ⊕ α)) (b : β) : Scan α := do loopWithin round (← source).rounds b

/-- What is left of the text. -/
def rest : Scan (List Char) := do cut (sliceFrom? (← source).text (← position))

/-- What has been read since a position. -/
def since (start : Nat) : Scan (List Char) := do cut (slice? (← source).text start (← position))

end Scan

end GraphPatterns
