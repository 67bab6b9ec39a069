/-
Paths. A `Path` is any list of vertices with a list of edges; a `Walk` is one that grows from a start
vertex step by step, so it always has one vertex more than it has edges (`Walk.length_vertices`).
-/
import GraphPatterns.Graph.Ident
import GraphPatterns.Pattern.Basic

namespace GraphPatterns

/-- A matched path. -/
structure Path where
  vertices : List VertexId
  edges : List EdgeId
deriving DecidableEq, Inhabited

namespace Path

/-- The number of edges. -/
def length (p : Path) : Nat := p.edges.length

def start? (p : Path) : Option VertexId := p.vertices.head?

def end? (p : Path) : Option VertexId := p.vertices.getLast?

/-- Whether the path has an edge and ends where it started. -/
def isClosed (p : Path) : Bool := !p.edges.isEmpty && p.start? == p.end?

/-- Every vertex followed by the edge of the same place. -/
def interleave : List VertexId → List EdgeId → List ElementId
  | [], _ => []
  | v :: vs, [] => .vertex v :: interleave vs []
  | v :: vs, e :: es => .vertex v :: .edge e :: interleave vs es

/-- The elements in order: vertex, edge, vertex and so on. -/
def elements (p : Path) : List ElementId := interleave p.vertices p.edges

def renderVertex (v : VertexId) : String := "(" ++ v.render ++ ")"

/-- The steps of a path after its first vertex, if there is an edge for each of them. -/
def renderSteps? : List VertexId → List EdgeId → Option String
  | [], _ => some ""
  | _ :: _, [] => none
  | v :: vs, e :: es =>
    (renderSteps? vs es).map fun rest => "-[" ++ e.render ++ "]-" ++ renderVertex v ++ rest

/-- The text of a path, if it has an edge before each vertex but the first. -/
def render? (p : Path) : Option String :=
  match p.vertices with
  | [] => some ""
  | v :: vs => (renderSteps? vs p.edges).map fun rest => renderVertex v ++ rest

end Path

/-- Whether a path of the given mode may go on over an edge to a vertex. -/
def PathMode.admits (mode : PathMode) (p : Path) (e : EdgeId) (v : VertexId) : Bool :=
  match mode with
  | .walk => true
  | .trail => !p.edges.contains e
  | .simple => !p.isClosed && !(p.vertices.drop 1).contains v
  | .acyclic => !p.vertices.contains v

/-- A start vertex and the steps taken from it. -/
structure Walk where
  start : VertexId
  steps : List (EdgeId × VertexId) := []
deriving DecidableEq, Inhabited

namespace Walk

def length (w : Walk) : Nat := w.steps.length

/-- The vertex that the walk has reached. -/
def current (w : Walk) : VertexId :=
  match w.steps.getLast? with
  | some step => step.2
  | none => w.start

def vertices (w : Walk) : List VertexId := w.start :: w.steps.map (·.2)

def edges (w : Walk) : List EdgeId := w.steps.map (·.1)

def toPath (w : Walk) : Path := ⟨w.vertices, w.edges⟩

/-- The walk with one step more. -/
def extend (w : Walk) (e : EdgeId) (v : VertexId) : Walk := { w with steps := w.steps ++ [(e, v)] }

/-- The part of a walk after its first `n` steps. -/
def since (w : Walk) (n : Nat) : Walk :=
  ⟨current ⟨w.start, w.steps.take n⟩, w.steps.drop n⟩

@[simp] theorem length_vertices (w : Walk) : w.vertices.length = w.edges.length + 1 := by
  simp [vertices, edges]

@[simp] theorem length_extend (w : Walk) (e : EdgeId) (v : VertexId) :
    (w.extend e v).length = w.length + 1 := by
  simp [length, extend]

@[simp] theorem current_extend (w : Walk) (e : EdgeId) (v : VertexId) :
    (w.extend e v).current = v := by
  simp [current, extend]

end Walk

end GraphPatterns
