/-
Records in JSON: a fixed list of named fields. A record is written as an object, in which the order of
the fields does not matter, other names are skipped and a name may not occur twice, or as an array of
its fields in order, in which fields at the end may be missing.
-/
import GraphPatterns.Assoc
import GraphPatterns.Json.Basic

namespace GraphPatterns.Json

/-- Whether no name of the list stands twice among the fields. -/
def unrepeated (names : List String) (fields : List (Option String × Json)) : Bool :=
  names.all fun name => (fields.filter fun f => f.1 == some name).length ≤ 1

/-- The values of the named fields of a record, `none` for a field that is missing. -/
def record? (names : List String) : Json → Option (List (Option Json))
  | .object fields =>
    if fields.all (fun f => f.1.isSome) && unrepeated names fields then
      some (names.map fun name => (fields.find? fun f => f.1 == some name).map (·.2))
    else none
  | .array items =>
    if items.length ≤ names.length then
      some ((items.map some) ++ List.replicate (names.length - items.length) none)
    else none
  | _ => none

/-- Reads a field that has to be there. -/
def required? {α : Type} (read? : Json → Option α) (field : Option Json) : Option α :=
  field.bind read?

/-- Reads a field that has a value when it is missing. -/
def orDefault? {α : Type} (value : α) (read? : Json → Option α) : Option Json → Option α
  | none => some value
  | some j => read? j

/-- Reads an array of things. -/
def listOf? {α : Type} (read? : Json → Option α) : Json → Option (List α)
  | .array items => items.mapM read?
  | _ => none

/-- The entries of an object with arbitrary names, each value read; of a repeated name the last one
counts. -/
def entriesOf? {α : Type} (read? : Json → Option α) : Json → Option (Assoc String α)
  | .object fields => do
    let entries ← fields.mapM fun f => do
      let name ← f.1
      let value ← read? f.2
      return (name, value)
    return Assoc.ofList entries
  | _ => none

end GraphPatterns.Json
