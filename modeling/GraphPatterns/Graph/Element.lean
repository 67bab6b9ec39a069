/-
Vertices and edges with their labels and properties.
-/
import GraphPatterns.Graph.Ident
import GraphPatterns.Value.Basic

namespace GraphPatterns

/-- Labels without repeats, in the order in which they were first given. -/
abbrev Labels := List String

namespace Labels

/-- Adds a label at the end, unless it is there. -/
def add (labels : Labels) (label : String) : Labels :=
  if label ∈ labels then labels else labels ++ [label]

/-- The labels of a list, each at its first place. -/
def ofList (names : List String) : Labels := names.foldl add []

theorem mem_add {labels : Labels} {label other : String} :
    other ∈ labels.add label ↔ other ∈ labels ∨ other = label := by
  unfold add
  split
  · next h => exact ⟨.inl, fun h' => h'.elim id fun e => e ▸ h⟩
  · simp

end Labels

/-- A vertex. -/
structure Vertex where
  id : VertexId
  labels : Labels
  properties : Properties

/-- An edge, from `src` to `dst` or, without direction, between the two. -/
structure Edge where
  id : EdgeId
  labels : Labels
  src : VertexId
  dst : VertexId
  directed : Bool
  properties : Properties

namespace Vertex

def hasLabel (v : Vertex) (label : String) : Bool := v.labels.contains label

def addLabel (v : Vertex) (label : String) : Vertex := { v with labels := v.labels.add label }

def property? (v : Vertex) (key : String) : Option Value := v.properties.get? key

def setProperty (v : Vertex) (key : String) (value : Value) : Vertex :=
  { v with properties := v.properties.insert key value }

def removeProperty (v : Vertex) (key : String) : Vertex :=
  { v with properties := v.properties.erase key }

end Vertex

namespace Edge

/-- Whether both ends are one vertex. -/
def isSelfLoop (e : Edge) : Bool := e.src = e.dst

/-- The end opposite to a given end. -/
def otherEnd? (e : Edge) (v : VertexId) : Option VertexId :=
  if v = e.src then some e.dst else if v = e.dst then some e.src else none

def property? (e : Edge) (key : String) : Option Value := e.properties.get? key

def setProperty (e : Edge) (key : String) (value : Value) : Edge :=
  { e with properties := e.properties.insert key value }

end Edge

end GraphPatterns
