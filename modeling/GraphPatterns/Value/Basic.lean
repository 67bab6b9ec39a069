/-
Property values, their text, and the comparison under which an integer equals the double of the same
number.
-/
import GraphPatterns.Assoc
import GraphPatterns.Number.Shortest

namespace GraphPatterns

/-- The value of a property. -/
inductive Value where
  | null
  | boolean (b : Bool)
  | integer (i : Int64)
  | real (x : Float)
  | text (s : String)
  | list (items : List Value)

instance : Inhabited Value := ⟨.null⟩

namespace Value

def isNull : Value → Bool
  | .null => true
  | _ => false

mutual

/-- A value as patterns write it. A text stands between single quotes as it is. -/
def render : Value → String
  | .null => "NULL"
  | .boolean b => if b then "true" else "false"
  | .integer i => toString i.toInt
  | .real x => Number.renderFloat x
  | .text s => "'" ++ s ++ "'"
  | .list items => "[" ++ ", ".intercalate (renderList items) ++ "]"

def renderList : List Value → List String
  | [] => []
  | v :: rest => render v :: renderList rest

end

mutual

/-- Equality of two values; numbers are compared by what they denote, lists item by item. -/
def looseEq : Value → Value → Bool
  | .null, .null => true
  | .boolean a, .boolean b => a == b
  | .integer a, .integer b => a == b
  | .integer a, .real b => a.toFloat == b
  | .real a, .integer b => b.toFloat == a
  | .real a, .real b => a == b
  | .text a, .text b => a == b
  | .list a, .list b => looseEqList a b
  | _, _ => false

def looseEqList : List Value → List Value → Bool
  | [], [] => true
  | x :: xs, y :: ys => looseEq x y && looseEqList xs ys
  | _, _ => false

end

end Value

/-- The properties of an element, in the order in which they were first set. -/
abbrev Properties := Assoc String Value

end GraphPatterns
