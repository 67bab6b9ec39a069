/-
The identity of vertices and edges, and the directions in which an edge may be crossed.
-/

namespace GraphPatterns

/-- The number of a vertex. -/
structure VertexId where
  number : Nat
deriving DecidableEq, Inhabited

/-- The number of an edge. -/
structure EdgeId where
  number : Nat
deriving DecidableEq, Inhabited

/-- A vertex or an edge. -/
inductive ElementId where
  | vertex (v : VertexId)
  | edge (e : EdgeId)
deriving DecidableEq, Inhabited

def VertexId.render (v : VertexId) : String := "v" ++ toString v.number

def EdgeId.render (e : EdgeId) : String := "e" ++ toString e.number

def ElementId.render : ElementId → String
  | .vertex v => v.render
  | .edge e => e.render

/-- How an edge pattern may be crossed, seen from the vertex at its left. -/
inductive Direction where
  | right
  | left
  | undirected
  | any
  | leftOrUndirected
  | undirectedOrRight
  | leftOrRight
deriving DecidableEq, Inhabited

namespace Direction

/-- Whether a directed edge that leaves the current vertex may be crossed. -/
def allowsRight : Direction → Bool
  | .right | .any | .undirectedOrRight | .leftOrRight => true
  | _ => false

/-- Whether a directed edge that enters the current vertex may be crossed. -/
def allowsLeft : Direction → Bool
  | .left | .any | .leftOrUndirected | .leftOrRight => true
  | _ => false

/-- Whether an edge without direction may be crossed. -/
def allowsUndirected : Direction → Bool
  | .undirected | .any | .leftOrUndirected | .undirectedOrRight => true
  | _ => false

/-- The arrow of an edge pattern without filler. -/
def render : Direction → String
  | .right => "->"
  | .left => "<-"
  | .undirected => "~"
  | .any => "-"
  | .leftOrUndirected => "<~"
  | .undirectedOrRight => "~>"
  | .leftOrRight => "<->"

/-- All seven directions. -/
def all : List Direction :=
  [.right, .left, .undirected, .any, .leftOrUndirected, .undirectedOrRight, .leftOrRight]

end Direction

end GraphPatterns
