/-
The number of columns that a line takes on a terminal. Of a colour sequence, which goes from escape
and an opening bracket to the letter m, only the escape character takes a column.
-/
import GraphPatterns.Text.Width.Context

namespace GraphPatterns.Text

/-- The columns of a line whose colour sequences are taken for text. -/
def columns (line : List Char) : Int :=
  (line.foldr (fun c (columns, ahead) =>
    let (more, ahead) := Ahead.place c ahead
    (columns + more, ahead)) ((0 : Int), {})).1

/-- Where a place in a line is with respect to colour sequences. -/
inductive ColourState where
  | outside
  | escape
  | inside

/-- The characters with a column of their own that belong to a colour sequence, its escape character
apart. -/
def hidden : ColourState → List Char → Nat
  | _, [] => 0
  | .outside, c :: rest => hidden (if c = '\x1b' then .escape else .outside) rest
  | .escape, c :: rest => if c = '[' then 1 + hidden .inside rest else hidden .outside rest
  | .inside, c :: rest =>
    (if !isControl c && 0 < charWidth c then 1 else 0) +
      hidden (if c = 'm' then .outside else .inside) rest

/-- The columns of a line. -/
def width (line : List Char) : Nat := (columns line - hidden .outside line).toNat

/-- Whether a line has a width. It has none if a colour sequence hides more characters than the line
takes columns, as it may when it contains ligatures or emoji that are tied together. -/
def hasWidth (line : List Char) : Bool := (hidden .outside line : Int) ≤ columns line

end GraphPatterns.Text
