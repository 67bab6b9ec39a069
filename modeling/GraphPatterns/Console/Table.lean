/-
Tables drawn with box characters. Each column is as wide as its widest line, a blank stands on both
sides of a cell, and a line is drawn between all rows.
-/
import GraphPatterns.Text.Lines
import GraphPatterns.Text.Width

namespace GraphPatterns.Table

/-- A cell as the lines of its text. -/
abbrev Cell := List (List Char)

def cell (s : String) : Cell := Text.lines s.toList

/-- The columns on the screen that a cell takes. -/
def cellWidth (c : Cell) : Nat := (c.map Text.width).foldl max 0

/-- The widths of the columns that hold all the given rows. -/
def columnWidths (rows : List (List Cell)) : List Nat :=
  rows.foldl (fun widths row =>
    (List.range (max widths.length row.length)).map fun i =>
      max (widths[i]?.getD 0) ((row[i]?.map cellWidth).getD 0)) []

/-- A line between rows: left end, crossing, right end. -/
def rule (left crossing right : String) (widths : List Nat) : String :=
  left ++ crossing.intercalate (widths.map fun w => String.ofList (List.replicate (w + 2) '─')) ++
    right ++ "\n"

/-- Text between two blanks, filled up to a width. -/
def padded (line : List Char) (width : Nat) : String :=
  " " ++ String.ofList (line ++ List.replicate (width - Text.width line) ' ') ++ " "

/-- One line of a row. -/
def rowLine (widths : List Nat) (row : List Cell) (i : Nat) : String :=
  let cells := widths.zipIdx.map fun (w, column) =>
    padded (((row[column]?.getD [])[i]?).getD []) w
  "│" ++ "│".intercalate cells ++ "│\n"

/-- A row has as many lines as its highest cell, and at least one. -/
def rowHeight (row : List Cell) : Nat := (row.map List.length).foldl max 1

def renderRow (widths : List Nat) (row : List Cell) : String :=
  String.join ((List.range (rowHeight row)).map (rowLine widths row))

/-- A table with a header. -/
def render (header : List String) (rows : List (List String)) : String :=
  let all := (header :: rows).map (·.map cell)
  let widths := columnWidths all
  rule "┌" "┬" "┐" widths ++
    (rule "├" "┼" "┤" widths).intercalate (all.map (renderRow widths)) ++
    rule "└" "┴" "┘" widths

/-- A table with a header, if every line in it has a width. -/
def render? (header : List String) (rows : List (List String)) : Option String :=
  if (header :: rows).all (·.all fun s => (cell s).all Text.hasWidth) then some (render header rows)
  else none

end GraphPatterns.Table
