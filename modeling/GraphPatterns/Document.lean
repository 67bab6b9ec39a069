/-
Graphs as documents: vertices with keys, edges between keys, and a schema. Importing a document adds
its vertices, then its edges, and last sets the schema; it stops at the first record that does not
fit and keeps what was added before.
-/
import GraphPatterns.Graph.Basic
import GraphPatterns.Value.Json

namespace GraphPatterns

structure VertexRecord where
  key : String
  labels : List String
  properties : Properties

structure EdgeRecord where
  src : String
  dst : String
  labels : List String
  properties : Properties
  directed : Bool

structure GraphDocument where
  vertices : List VertexRecord := []
  edges : List EdgeRecord := []
  schema : Option Schema := none

/-! ## Reading -/

namespace GraphDocument

/-- The brackets that may still be open inside a property of a record of a document. -/
def propertyRoom : Nat := Value.nestingLimit - 4

def labelsOfJson? : Option Json → Option (List String) :=
  Json.orDefault? [] (Json.listOf? Json.asString?)

def propertiesOfJson? : Option Json → Option Properties :=
  Json.orDefault? [] (Json.entriesOf? (Value.ofJson? propertyRoom))

def vertexOfJson? (j : Json) : Option VertexRecord := do
  match ← Json.record? ["id", "labels", "properties"] j with
  | [key, labels, properties] =>
    return {
      key := ← Json.required? Json.asString? key
      labels := ← labelsOfJson? labels
      properties := ← propertiesOfJson? properties }
  | _ => none

def edgeOfJson? (j : Json) : Option EdgeRecord := do
  match ← Json.record? ["src", "dst", "labels", "properties", "directed"] j with
  | [src, dst, labels, properties, directed] =>
    return {
      src := ← Json.required? Json.asString? src
      dst := ← Json.required? Json.asString? dst
      labels := ← labelsOfJson? labels
      properties := ← propertiesOfJson? properties
      directed := ← Json.orDefault? true Json.asBool? directed }
  | _ => none

def propertySpecOfJson? (j : Json) : Option PropertySpec := do
  match ← Json.record? ["name", "data_type"] j with
  | [name, dataType] =>
    return {
      name := ← Json.required? Json.asString? name
      dataType := ← Json.orDefault? "" Json.asString? dataType }
  | _ => none

def schemaOfJson? (j : Json) : Option Schema := do
  let types? := Json.orDefault? [] (Json.entriesOf? (Json.listOf? propertySpecOfJson?))
  match ← Json.record? ["node_types", "edge_types"] j with
  | [nodeTypes, edgeTypes] => return ⟨← types? nodeTypes, ← types? edgeTypes⟩
  | _ => none

def optionalSchemaOfJson? : Json → Option (Option Schema)
  | .null => some none
  | j => (schemaOfJson? j).map some

def ofJson? (j : Json) : Option GraphDocument := do
  match ← Json.record? ["vertices", "edges", "schema"] j with
  | [vertices, edges, schema] =>
    return {
      vertices := ← Json.orDefault? [] (Json.listOf? vertexOfJson?) vertices
      edges := ← Json.orDefault? [] (Json.listOf? edgeOfJson?) edges
      schema := ← Json.orDefault? none optionalSchemaOfJson? schema }
  | _ => none

/-- Reads the text of a document. -/
def read? (text : String) : Option GraphDocument := (Json.read? text).bind ofJson?

end GraphDocument

/-! ## Importing -/

/-- Why a document does not fit together. -/
inductive ImportError where
  | repeatedKey (key : String)
  /-- The edge of the given place, counted from zero, ends at a key that no vertex has. -/
  | unknownKey (place : Nat) (key : String)
deriving DecidableEq

def ImportError.message : ImportError → String
  | .repeatedKey key => "重复的顶点键: " ++ key
  | .unknownKey place key => "第 " ++ toString place ++ " 条边引用了不存在的顶点: " ++ key

/-- The vertices that the keys of a document stand for. -/
abbrev KeyMap := Assoc String VertexId

/-- How many records have been imported. -/
structure ImportStats where
  vertices : Nat := 0
  edges : Nat := 0
deriving DecidableEq

namespace GraphDocument

/-- Adds vertices as long as their keys are new. -/
def importVertices (g : Graph) (keys : KeyMap) (stats : ImportStats) :
    List VertexRecord → Graph × Except ImportError (KeyMap × ImportStats)
  | [] => (g, .ok (keys, stats))
  | r :: rest =>
    if keys.has r.key then (g, .error (.repeatedKey r.key))
    else
      let (v, g) := g.addVertex (Labels.ofList r.labels) r.properties
      importVertices g (keys ++ [(r.key, v)]) { stats with vertices := stats.vertices + 1 } rest

/-- The vertex of a key that an edge ends at. -/
def endpoint (keys : KeyMap) (place : Nat) (key : String) : Except ImportError VertexId :=
  match keys.get? key with
  | some v => .ok v
  | none => .error (.unknownKey place key)

/-- Adds edges as long as their ends are there. The vertices of the keys are in the graph, so only an
unknown key can stop an edge. -/
def importEdges (keys : KeyMap) (g : Graph) (stats : ImportStats) (place : Nat) :
    List EdgeRecord → Graph × Except ImportError ImportStats
  | [] => (g, .ok stats)
  | r :: rest =>
    match endpoint keys place r.src, endpoint keys place r.dst with
    | .error e, _ => (g, .error e)
    | .ok _, .error e => (g, .error e)
    | .ok src, .ok dst =>
      match g.addEdge src dst r.directed (Labels.ofList r.labels) r.properties with
      | .ok (_, g) => importEdges keys g { stats with edges := stats.edges + 1 } (place + 1) rest
      | .error _ => (g, .error (.unknownKey place r.src))

/-- Imports a document into a graph. -/
def importInto (d : GraphDocument) (g : Graph) : Graph × Except ImportError (KeyMap × ImportStats) :=
  match importVertices g [] {} d.vertices with
  | (g, .error e) => (g, .error e)
  | (g, .ok (keys, stats)) =>
    match importEdges keys g stats 0 d.edges with
    | (g, .error e) => (g, .error e)
    | (g, .ok stats) =>
      let g :=
        match d.schema with
        | some s => g.setSchema s
        | none => g
      (g, .ok (keys, stats))

/-- The graph of a document. -/
def toGraph (d : GraphDocument) : Except ImportError Graph :=
  match d.importInto .empty with
  | (_, .error e) => .error e
  | (g, .ok _) => .ok g

end GraphDocument

end GraphPatterns
