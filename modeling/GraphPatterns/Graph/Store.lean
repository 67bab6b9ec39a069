/-
What a search reads of a graph. A search sees the graph only through these functions, so it runs on
any store that supplies them.
-/
import GraphPatterns.Graph.Element

namespace GraphPatterns

/-- A graph to be read. The order of `vertices` is the order in which a search starts, and the order
of `neighbors` the order in which it goes on. -/
structure Store where
  vertices : List VertexId
  withLabel : String → List VertexId
  contains : VertexId → Bool
  /-- The edges that may be crossed from a vertex, each with the vertex it leads to. -/
  neighbors : VertexId → Direction → List (EdgeId × VertexId)
  /-- The two ends of an edge, in the order in which it was added. -/
  ends? : EdgeId → Option (VertexId × VertexId)
  labels? : ElementId → Option Labels
  properties? : ElementId → Option Properties
  /-- Whether the catalogue knows a label. -/
  knowsLabel : String → Bool
  /-- Whether the catalogue knows a property key. -/
  knowsKey : String → Bool

namespace Store

/-- The store without its catalogue and its label index: every name is known, and the vertices under
a label are found by looking at all vertices. -/
def bare (store : Store) : Store :=
  { store with
    withLabel := fun label =>
      store.vertices.filter fun v =>
        match store.labels? (.vertex v) with
        | some labels => labels.contains label
        | none => false
    knowsLabel := fun _ => true
    knowsKey := fun _ => true }

end Store

end GraphPatterns
