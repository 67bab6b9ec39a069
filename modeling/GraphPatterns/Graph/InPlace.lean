/-
The operations on a graph as steps that change it in place. What has been changed before a step fails
stays changed, so it matters that every check stands before the first change. `Change.run_removeVertex`
and its like say that each operation comes to the one on whole graphs.
-/
import GraphPatterns.Graph.Basic
import GraphPatterns.Steps

namespace GraphPatterns

/-- Steps on a graph, of which one may fail. -/
abbrev Change (α : Type) := ExceptT GraphError (StateM Graph) α

namespace Change

/-- What the steps answer, and the graph after them. -/
def run {α : Type} (c : Change α) (g : Graph) : Except GraphError α × Graph := Steps.run c g

/-- Takes the number of the next vertex. -/
def newVertex : Change VertexId := do
  let v : VertexId := ⟨(← get).nextVertex⟩
  modify fun g => { g with nextVertex := g.nextVertex + 1 }
  return v

/-- Takes the number of the next edge. -/
def newEdge : Change EdgeId := do
  let e : EdgeId := ⟨(← get).nextEdge⟩
  modify fun g => { g with nextEdge := g.nextEdge + 1 }
  return e

/-- Takes a vertex out of the graph, but not out of the index. -/
def takeVertex (v : VertexId) : Change Vertex := do
  match (← get).vertex? v with
  | some x =>
    modify fun g => { g with vertices := g.vertices.filter (·.id ≠ v) }
    return x
  | none => throw (.noVertex v)

/-- Takes an edge out of the graph, but not out of the index, if it is there. -/
def takeEdge? (e : EdgeId) : Change (Option Edge) := do
  match (← get).edge? e with
  | some x =>
    modify fun g => { g with edges := g.edges.filter (·.id ≠ e) }
    return some x
  | none => return none

/-- Removes an edge, and tells whether it was there. -/
def detach (e : EdgeId) : Change Bool := do
  match ← takeEdge? e with
  | some x =>
    modify fun g => { g with edgeIndex := g.edgeIndex.remove e x.src x.dst x.directed x.labels }
    return true
  | none => return false

def addVertex (labels : Labels) (properties : Properties) : Change VertexId := do
  let v ← newVertex
  modify fun g => { g with vertexIndex := g.vertexIndex.add v labels }
  modify fun g => { g with vertices := g.vertices ++ [⟨v, labels, properties⟩] }
  return v

/-- Adds an edge. Both ends are looked up before a number is taken. -/
def addEdge (src dst : VertexId) (directed : Bool) (labels : Labels) (properties : Properties) :
    Change EdgeId := do
  if !(← get).contains src then throw (.noSource src)
  if !(← get).contains dst then throw (.noTarget dst)
  let e ← newEdge
  let edge : Edge := ⟨e, labels, src, dst, directed, properties⟩
  modify fun g => { g with edgeIndex := g.edgeIndex.add edge }
  modify fun g => { g with edges := g.edges ++ [edge] }
  return e

def removeEdge (e : EdgeId) : Change Unit := do
  if !(← detach e) then throw (.noEdge e)

/-- Removes a vertex, then one after another the edges that are listed at it. A directed self-loop is
listed twice and found only once. -/
def removeVertex (v : VertexId) : Change Unit := do
  let x ← takeVertex v
  modify fun g => { g with vertexIndex := g.vertexIndex.remove v x.labels }
  let incident := (← get).incident v
  forM incident fun e => discard (detach e)

/-! ## The graph after the steps -/

section

variable {α β : Type} (g : Graph)

theorem run_pure (a : α) : (pure a : Change α).run g = (.ok a, g) := Steps.run_pure a g

theorem run_throw (e : GraphError) : (throw e : Change α).run g = (.error e, g) :=
  Steps.run_throw e g

theorem run_modify (f : Graph → Graph) : (modify f : Change Unit).run g = (.ok (), f g) :=
  Steps.run_modify f g

theorem run_get : (get : Change Graph).run g = (.ok g, g) := Steps.run_get g

theorem run_bind (c : Change α) (next : α → Change β) :
    (c >>= next).run g =
      match c.run g with
      | (.ok a, g) => (next a).run g
      | (.error e, g) => (.error e, g) := by
  simp only [run, Steps.run_bind]
  rcases Steps.run c g with ⟨_ | _, _⟩ <;> rfl

theorem run_detach (e : EdgeId) : (detach e).run g = (.ok (g.edge? e).isSome, g.detach e) := by
  rw [detach, run_bind, takeEdge?, run_bind, run_get]
  simp only
  cases h : g.edge? e with
  | none =>
    rw [Graph.detach, h]
    rfl
  | some x =>
    rw [Graph.detach, h]
    rfl

theorem run_forM_detach (es : List EdgeId) :
    (forM es fun e => (discard (detach e) : Change PUnit)).run g = (.ok (), es.foldl Graph.detach g) := by
  induction es generalizing g with
  | nil => rfl
  | cons e es ih =>
    have hfirst : (discard (detach e) : Change PUnit).run g = (.ok (), g.detach e) := by
      have hmap : (discard (detach e) : Change PUnit) = detach e >>= fun _ => pure () := rfl
      rw [hmap, run_bind, run_detach]
      rfl
    rw [List.forM_cons, run_bind, hfirst]
    exact ih (g.detach e)

theorem run_addVertex (labels : Labels) (properties : Properties) :
    (addVertex labels properties).run g =
      (.ok (g.addVertex labels properties).1, (g.addVertex labels properties).2) := rfl

theorem run_addEdge (src dst : VertexId) (directed : Bool) (labels : Labels) (properties : Properties) :
    (addEdge src dst directed labels properties).run g =
      match g.addEdge src dst directed labels properties with
      | .ok (e, later) => (.ok e, later)
      | .error e => (.error e, g) := by
  rw [addEdge, Graph.addEdge, run_bind, run_get]
  cases hsrc : g.contains src with
  | false =>
    simp only [hsrc]
    rfl
  | true =>
    simp only [hsrc, Bool.not_true, Bool.false_eq_true, if_false, run_bind, run_get]
    cases hdst : g.contains dst <;> rfl

theorem run_removeEdge (e : EdgeId) :
    (removeEdge e).run g =
      match g.removeEdge e with
      | .ok later => (.ok (), later)
      | .error e => (.error e, g) := by
  rw [removeEdge, Graph.removeEdge, run_bind, run_detach]
  cases h : g.edge? e with
  | none => simp [Graph.detach, h, run_throw]
  | some x => simp [run_pure]

theorem run_removeVertex (v : VertexId) :
    (removeVertex v).run g =
      match g.removeVertex v with
      | .ok later => (.ok (), later)
      | .error e => (.error e, g) := by
  rw [removeVertex, Graph.removeVertex, run_bind, takeVertex, run_bind, run_get]
  simp only
  cases h : g.vertex? v with
  | none => rfl
  | some x =>
    simp only [run_bind, run_modify, run_pure, run_get]
    exact run_forM_detach _ _

end

end Change

end GraphPatterns
