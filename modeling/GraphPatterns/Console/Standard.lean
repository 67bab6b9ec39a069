/-
What the program prints with: tables with box characters, and JSON on one line.
-/
import GraphPatterns.Console.Session
import GraphPatterns.Console.Table
import GraphPatterns.Json.Printer

namespace GraphPatterns

/-- The libraries of the program. -/
def Printer.standard : Printer where
  table := Table.render?
  json j := .ok j.render

/-- Matches as text, with the time that the search took, if they have one. -/
def Report.render? (mode : PrintMode) (ms : List Match) (milliseconds : Nat) : Option String :=
  (Printer.standard.print mode ms milliseconds).toOption

/-- The counters of a search as a table. -/
def Report.renderTally (t : Tally) : String := (Printer.standard.counters? t).getD ""

/-- The text of a response, with the time that it took. -/
def Response.text (milliseconds : Nat) (response : Response) : String :=
  match response.answer? .standard milliseconds with
  | some (.message text) => text
  | some (.failure text) => text
  | _ => ""

end GraphPatterns
