/-
Property values in JSON: literals stand for themselves. A number without fraction and exponent that
64 bits hold is an integer, any other number a double; an object is not a value.
-/
import GraphPatterns.Json.Reader
import GraphPatterns.Json.Record
import GraphPatterns.Value.Basic

namespace GraphPatterns.Value

/-- The number of brackets that may be open at one place of a document. -/
def nestingLimit : Nat := 127

mutual

/-- The value of a JSON value that opens at most `room` brackets inside each other. -/
def ofJson? (room : Nat) : Json → Option Value
  | .null => some .null
  | .bool b => some (.boolean b)
  | .number n =>
    match n.asInt64? with
    | some i => some (.integer i)
    | none => n.asFloat?.map .real
  | .string s => s.map .text
  | .array items => if room = 0 then none else (ofJsonList? (room - 1) items).map .list
  | .object _ => none

def ofJsonList? (room : Nat) : List Json → Option (List Value)
  | [] => some []
  | j :: rest => do
    let v ← ofJson? room j
    let vs ← ofJsonList? room rest
    return v :: vs

end

/-- Reads a whole text as one value. -/
def read? (text : String) : Option Value := (Json.read? text).bind (ofJson? nestingLimit)

end GraphPatterns.Value
