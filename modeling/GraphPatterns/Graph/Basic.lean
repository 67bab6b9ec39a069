/-
A property graph in memory. The n-th vertex and the n-th edge ever added get the number n; a removal
frees no number. An operation that fails leaves the graph as it was.
-/
import GraphPatterns.Graph.Index
import GraphPatterns.Graph.Store

namespace GraphPatterns

/-- A declared property. -/
structure PropertySpec where
  name : String
  dataType : String

/-- Declared labels, each with its declared properties. -/
structure Schema where
  nodeTypes : Assoc String (List PropertySpec) := []
  edgeTypes : Assoc String (List PropertySpec) := []

namespace Schema

def declaresLabel (s : Schema) (label : String) : Bool :=
  s.nodeTypes.has label || s.edgeTypes.has label

def declaresKey (s : Schema) (key : String) : Bool :=
  (s.nodeTypes ++ s.edgeTypes).any fun entry => entry.2.any (·.name == key)

end Schema

/-- Why an operation on a graph fails. -/
inductive GraphError where
  | noVertex (v : VertexId)
  /-- An edge was to leave a vertex that is not there. -/
  | noSource (v : VertexId)
  /-- An edge was to enter a vertex that is not there. -/
  | noTarget (v : VertexId)
  | noEdge (e : EdgeId)
deriving DecidableEq

/-- Vertices and edges in the order in which they were added, with their indexes. -/
structure Graph where
  vertices : List Vertex := []
  edges : List Edge := []
  vertexIndex : VertexIndex := {}
  edgeIndex : EdgeIndex := {}
  schema : Option Schema := none
  /-- The numbers of the next vertex and the next edge. -/
  nextVertex : Nat := 1
  nextEdge : Nat := 1

namespace Graph

/-- The graph without vertices and edges. -/
def empty : Graph := {}

def vertex? (g : Graph) (v : VertexId) : Option Vertex := g.vertices.find? (·.id = v)

def edge? (g : Graph) (e : EdgeId) : Option Edge := g.edges.find? (·.id = e)

def contains (g : Graph) (v : VertexId) : Bool := (g.vertex? v).isSome

def setSchema (g : Graph) (s : Schema) : Graph := { g with schema := some s }

/-- Adds a vertex. -/
def addVertex (g : Graph) (labels : Labels) (properties : Properties) : VertexId × Graph :=
  let id : VertexId := ⟨g.nextVertex⟩
  (id, { g with
    vertices := g.vertices ++ [⟨id, labels, properties⟩]
    vertexIndex := g.vertexIndex.add id labels
    nextVertex := g.nextVertex + 1 })

/-- Adds an edge, directed or not, between two vertices that are there. -/
def addEdge (g : Graph) (src dst : VertexId) (directed : Bool) (labels : Labels)
    (properties : Properties) : Except GraphError (EdgeId × Graph) :=
  if !g.contains src then .error (.noSource src)
  else if !g.contains dst then .error (.noTarget dst)
  else
    let edge : Edge := ⟨⟨g.nextEdge⟩, labels, src, dst, directed, properties⟩
    .ok (edge.id, { g with
      edges := g.edges ++ [edge]
      edgeIndex := g.edgeIndex.add edge
      nextEdge := g.nextEdge + 1 })

/-- Removes an edge if it is there. -/
def detach (g : Graph) (e : EdgeId) : Graph :=
  match g.edge? e with
  | none => g
  | some edge =>
    { g with
      edges := g.edges.filter (·.id ≠ e)
      edgeIndex := g.edgeIndex.remove e edge.src edge.dst edge.directed edge.labels }

def removeEdge (g : Graph) (e : EdgeId) : Except GraphError Graph :=
  if (g.edge? e).isSome then .ok (g.detach e) else .error (.noEdge e)

/-- The edges at a vertex: outgoing, incoming, then those without direction. -/
def incident (g : Graph) (v : VertexId) : List EdgeId :=
  g.edgeIndex.outgoing.entry v ++ g.edgeIndex.incoming.entry v ++ g.edgeIndex.undirected.entry v

/-- Removes a vertex and the edges at it. -/
def removeVertex (g : Graph) (v : VertexId) : Except GraphError Graph :=
  match g.vertex? v with
  | none => .error (.noVertex v)
  | some vertex =>
    let without := { g with
      vertices := g.vertices.filter (·.id ≠ v)
      vertexIndex := g.vertexIndex.remove v vertex.labels }
    .ok ((g.incident v).foldl detach without)

/-! ## Reading -/

/-- The edges that may be crossed from a vertex: outgoing, incoming, then those without direction.
Where both ways are allowed a directed self-loop is listed as outgoing only. -/
def neighbors (g : Graph) (v : VertexId) (d : Direction) : List (EdgeId × VertexId) :=
  let outgoing :=
    if d.allowsRight then
      ((g.edgeIndex.outgoing.entry v).filterMap g.edge?).map fun e => (e.id, e.dst)
    else []
  let incoming :=
    if d.allowsLeft then
      (((g.edgeIndex.incoming.entry v).filterMap g.edge?).filter fun e =>
        !(d.allowsRight && e.isSelfLoop)).map fun e => (e.id, e.src)
    else []
  let undirected :=
    if d.allowsUndirected then
      ((g.edgeIndex.undirected.entry v).filterMap g.edge?).filterMap fun e =>
        (e.otherEnd? v).map fun other => (e.id, other)
    else []
  outgoing ++ incoming ++ undirected

/-- Whether a vertex or an edge carries a label, or the schema declares it. -/
def knowsLabel (g : Graph) (label : String) : Bool :=
  g.vertexIndex.hasLabel label || g.edgeIndex.hasLabel label ||
    g.schema.any (·.declaresLabel label)

/-- Whether a vertex or an edge has a property, or the schema declares it. -/
def knowsKey (g : Graph) (key : String) : Bool :=
  g.schema.any (·.declaresKey key) ||
    g.vertices.any (fun v => (v.property? key).isSome) ||
    g.edges.any (fun e => (e.property? key).isSome)

/-- The graph as a search reads it. -/
def store (g : Graph) : Store where
  vertices := g.vertices.map (·.id)
  withLabel := g.vertexIndex.withLabel
  contains := g.contains
  neighbors := g.neighbors
  ends? := fun e => (g.edge? e).map fun edge => (edge.src, edge.dst)
  labels?
    | .vertex v => (g.vertex? v).map (·.labels)
    | .edge e => (g.edge? e).map (·.labels)
  properties?
    | .vertex v => (g.vertex? v).map (·.properties)
    | .edge e => (g.edge? e).map (·.properties)
  knowsLabel := g.knowsLabel
  knowsKey := g.knowsKey

end Graph

end GraphPatterns
