/-
The lines of a text. A line ends at a line feed, with or without a carriage return before it; text
after the last line feed is a line too, if there is any.
-/

namespace GraphPatterns.Text

/-- The pieces of a text between its line feeds: one more than there are line feeds. -/
def pieces (s : List Char) : List (List Char) :=
  s.foldr (fun c parts =>
    match parts with
    | p :: rest => if c = '\n' then [] :: p :: rest else (c :: p) :: rest
    | [] => [[c]]) [[]]

/-- Drops a carriage return at the end. -/
def dropReturn (line : List Char) : List Char :=
  if line.getLast? = some '\r' then line.dropLast else line

/-- The lines of a text. -/
def lines (s : List Char) : List (List Char) :=
  let parts := pieces s
  parts.dropLast.map dropReturn ++ (parts.getLast?.toList.filter (! ·.isEmpty))

end GraphPatterns.Text
