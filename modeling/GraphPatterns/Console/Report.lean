/-
What the console prints: matches as a table, line by line or as JSON, and the counters of a search. Tables
are drawn and JSON is written by libraries, of which nothing is assumed here (`Printer`).
-/
import GraphPatterns.Matching.Record
import GraphPatterns.Text.Blank

namespace GraphPatterns

/-- The libraries that draw tables and write JSON. -/
structure Printer where
  /-- A table with a header and rows. A library that cannot draw it ends the whole program. -/
  table : List String → List (List String) → Option String
  /-- JSON as text, or what the library says if it cannot write it. -/
  json : Json → Except String String

/-- How matches are printed. -/
inductive PrintMode where
  | table
  /-- A line for each variable of each match. -/
  | vertical
  /-- A line of JSON for each match. -/
  | json
deriving DecidableEq, Inhabited

namespace Report

/-- The variables that occur in matches, each at its first place. -/
def names (ms : List Match) : List String :=
  ms.foldl (fun names m => m.bindings.keys.foldl Labels.add names) []

/-- What a match shows in the column of a variable. -/
def cell? (m : Match) (name : String) : Option String :=
  match m.bindings.get? name with
  | some b => b.render?
  | none => some ""

/-- A match as a row: its variables, then its paths. -/
def row? (names : List String) (m : Match) : Option (List String) := do
  let cells ← names.mapM (cell? m)
  let paths ← m.paths.mapM Path.render?
  return cells ++ [", ".intercalate paths]

/-- Text filled up with blanks on the left to a number of characters. -/
def alignRight (width : Nat) (s : String) : String :=
  String.ofList (List.replicate (width - s.length) ' ') ++ s

/-- The most bytes that a name takes. -/
def nameWidth (columns : List String) : Nat := (columns.map String.utf8ByteSize).foldl max 0

/-- The greatest width that a text can be filled up to. -/
def maxAligned : Nat := 65535

/-- The rows line by line. The names are aligned to the most bytes that one of them takes. -/
def renderVertical (columns : List String) (rows : List (List String)) : String :=
  let width := nameWidth columns
  let lines := rows.zipIdx.flatMap fun (row, i) =>
    let stars := "***************************"
    (stars ++ " " ++ toString (i + 1) ++ ". row " ++ stars ++ "\n") ::
      (columns.zip row).map fun (name, text) => alignRight width name ++ ": " ++ text ++ "\n"
  String.join lines

/-- The rows line by line, if the names can be aligned. -/
def renderVertical? (columns : List String) (rows : List (List String)) : Option String :=
  if nameWidth columns ≤ maxAligned then some (renderVertical columns rows) else none

/-- Tells whether a line ends with the mark for vertical output, and drops the mark. -/
def verticalMark (line : String) : String × Bool :=
  let s := Text.trim line.toList
  match s.reverse with
  | c :: '\\' :: rest =>
    if c = 'G' ∨ c = 'g' then (String.ofList (Text.trim rest.reverse), true)
    else (String.ofList s, false)
  | _ => (String.ofList s, false)

end Report

/-- Why matches are not printed. -/
inductive Unprinted where
  /-- They have no text. The whole program ends. -/
  | crash
  /-- Their JSON is not written. -/
  | unwritten (reason : String)
deriving DecidableEq

namespace Printer

/-- A line of JSON for each match. -/
def jsonLines (p : Printer) : List Match → Except Unprinted String
  | [] => .ok ""
  | m :: ms =>
    match p.json m.toJson with
    | .error reason => .error (.unwritten reason)
    | .ok text => return text ++ "\n" ++ (← p.jsonLines ms)

/-- The rows of some matches as a table or line by line, if every path in them has a text, and the table
can be drawn or the names can be aligned. -/
def sheet? (p : Printer) (mode : PrintMode) (ms : List Match) : Option String := do
  let names := Report.names ms
  let rows ← ms.mapM (Report.row? names)
  let columns := names ++ ["path"]
  let body ← if mode = .vertical then Report.renderVertical? columns rows else p.table columns rows
  return body ++ "\n" ++ toString rows.length ++ " row(s) in set"

/-- Matches as text, with the time that the search took. -/
def print (p : Printer) (mode : PrintMode) (ms : List Match) (milliseconds : Nat) :
    Except Unprinted String :=
  let time := " (" ++ toString milliseconds ++ " ms)\n"
  match mode with
  | .json => p.jsonLines ms
  | _ =>
    if ms.isEmpty then .ok ("Empty set" ++ time)
    else
      match p.sheet? mode ms with
      | some sheet => .ok (sheet ++ time)
      | none => .error .crash

/-- The counters of a search as a table. -/
def counters? (p : Printer) (t : Tally) : Option String :=
  p.table ["Counter", "Value"] [
    ["Starts Tried", toString t.startsTried],
    ["Edges Expanded", toString t.edgesExpanded],
    ["Branches Pruned", toString t.branchesPruned],
    ["Results", toString t.resultsYielded],
    ["Truncated", if t.truncated then "true" else "false"]]

end Printer

end GraphPatterns
