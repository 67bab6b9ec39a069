/-
Matches and what variables are bound to, in JSON.
-/
import GraphPatterns.Json.Basic
import GraphPatterns.Matching.Join

namespace GraphPatterns

def Path.toJson (p : Path) : Json :=
  Json.ofFields [
    ("vertices", .array (p.vertices.map fun v => Json.ofNat v.number)),
    ("edges", .array (p.edges.map fun e => Json.ofNat e.number))]

def ElementId.toJson : ElementId → Json
  | .vertex v => Json.ofFields [("Vertex", Json.ofNat v.number)]
  | .edge e => Json.ofFields [("Edge", Json.ofNat e.number)]

def Bound.toJson : Bound → Json
  | .vertex v => Json.ofFields [("vertex", Json.ofNat v.number)]
  | .edge e => Json.ofFields [("edge", Json.ofNat e.number)]
  | .group items => Json.ofFields [("group", .array (items.map ElementId.toJson))]
  | .path p => Json.ofFields [("path", p.toJson)]

def Match.toJson (m : Match) : Json :=
  Json.ofFields [
    ("bindings", Json.ofFields (m.bindings.map fun (name, b) => (name, b.toJson))),
    ("paths", .array (m.paths.map Path.toJson))]

/-! ## Access -/

/-- The vertex that a variable is bound to. -/
def Match.vertex? (m : Match) (name : String) : Option VertexId :=
  (m.bindings.get? name).bind Bound.asVertex?

/-- The edge that a variable is bound to. -/
def Match.edge? (m : Match) (name : String) : Option EdgeId :=
  (m.bindings.get? name).bind Bound.asEdge?

/-- The path of the first path pattern. -/
def Match.path? (m : Match) : Option Path := m.paths.head?

end GraphPatterns
