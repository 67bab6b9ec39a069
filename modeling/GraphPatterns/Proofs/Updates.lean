/-
What an operation on a graph leaves as it is (`Graph.performAll_named`). A removal takes out what it names
and the edges at it; what is left stands in every list of the graph in its old order (`Graph.IsWithout`).
An operation that fails changes nothing, and the identifiers that are handed out count from one, whatever
has been removed in between.

The entries of an index list what belongs under their keys, before a removal and after it, so an entry
loses what the graph loses (`IdIndex.Lists.entry_filter`).
-/
import GraphPatterns.Graph.InPlace
import GraphPatterns.Proofs.GraphScan

namespace GraphPatterns

/-- What is taken out of the elements is taken out of the entries, and nothing else. -/
theorem IdIndex.Lists.entry_filter {κ ι α : Type} [DecidableEq κ] [DecidableEq ι]
    {index later : IdIndex κ ι} {id : α → ι} {belongs : κ → α → Bool} {xs : List α} {lost : List ι}
    (h : index.Lists id belongs xs) (hlater : later.Lists id belongs (xs.filter (id · ∉ lost))) (key : κ) :
    later.entry key = (index.entry key).filter (· ∉ lost) := by
  rw [hlater key, h key, List.filter_map, List.filter_filter, List.filter_filter]
  exact congrArg (List.map id) (List.filter_congr fun _ _ => Bool.and_comm ..)

namespace Graph

/-! ## Removals -/

/-- The graph `g` without some vertices and edges. All else is as it was, and in the same order. -/
structure IsWithout (later g : Graph) (vs : List VertexId) (es : List EdgeId) : Prop where
  vertices : later.vertices = g.vertices.filter (·.id ∉ vs)
  edges : later.edges = g.edges.filter (·.id ∉ es)
  withLabel : ∀ label, later.vertexIndex.withLabel label =
    (g.vertexIndex.withLabel label).filter (· ∉ vs)
  edgesWithLabel : ∀ label, later.edgeIndex.byLabel.entry label =
    (g.edgeIndex.byLabel.entry label).filter (· ∉ es)
  outgoing : ∀ v, later.edgeIndex.outgoing.entry v = (g.edgeIndex.outgoing.entry v).filter (· ∉ es)
  incoming : ∀ v, later.edgeIndex.incoming.entry v = (g.edgeIndex.incoming.entry v).filter (· ∉ es)
  undirected : ∀ v, later.edgeIndex.undirected.entry v =
    (g.edgeIndex.undirected.entry v).filter (· ∉ es)
  schema : later.schema = g.schema
  nextVertex : later.nextVertex = g.nextVertex
  nextEdge : later.nextEdge = g.nextEdge

variable {g later : Graph}

/-- The vertices and edges decide what the indexes list. -/
theorem Indexed.isWithout (h : g.Indexed) (hlater : later.Indexed) {vs : List VertexId} {es : List EdgeId}
    (hplain : later.plain = { g.plain with
      vertices := g.vertices.filter (·.id ∉ vs)
      edges := g.edges.filter (·.id ∉ es) }) : later.IsWithout g vs es := by
  obtain ⟨hvertices, hedges, hschema, hnextVertex, hnextEdge⟩ := Plain.mk.inj hplain
  have hindex := hlater.vertices.lists
  have hedgeIndex := hlater.edges.lists
  rw [hvertices] at hindex
  rw [hedges] at hedgeIndex
  exact {
    vertices := hvertices
    edges := hedges
    withLabel := h.vertices.lists.entry_filter hindex
    edgesWithLabel := h.edges.lists.byLabel.entry_filter hedgeIndex.byLabel
    outgoing := h.edges.lists.outgoing.entry_filter hedgeIndex.outgoing
    incoming := h.edges.lists.incoming.entry_filter hedgeIndex.incoming
    undirected := h.edges.lists.undirected.entry_filter hedgeIndex.undirected
    schema := hschema
    nextVertex := hnextVertex
    nextEdge := hnextEdge }

/-- The edges that have a vertex as an end. -/
def edgesAt (g : Graph) (v : VertexId) : List EdgeId :=
  (g.edges.filter fun e => e.src = v || e.dst = v).map (·.id)

theorem Indexed.isWithout_removeVertex (h : g.Indexed) {v : VertexId} (hok : g.removeVertex v = .ok later) :
    later.IsWithout g [v] (g.edgesAt v) := by
  refine h.isWithout (h.removeVertex hok) ?_
  have happly : g.apply (.removeVertex v) = later := by rw [Graph.apply, hok]
  rw [← happly, h.plain_apply, Plain.apply]
  have hedges : (g.edges.filter fun e => e.src ≠ v && e.dst ≠ v) = g.edges.filter (·.id ∉ g.edgesAt v) := by
    refine List.filter_congr fun e he => ?_
    have hmem : e.id ∈ g.edgesAt v ↔ e.src = v ∨ e.dst = v := by
      refine ⟨fun hmem => ?_, fun hends => ?_⟩
      · obtain ⟨x, hx, hid⟩ := List.mem_map.mp hmem
        obtain ⟨hx, hends⟩ := List.mem_filter.mp hx
        rw [List.inj_on_of_nodup_map h.edges.nodup hx he hid] at hends
        simpa using hends
      · exact List.mem_map_of_mem (List.mem_filter.mpr ⟨he, by simpa using hends⟩)
    simp [hmem]
  simp only [plain, List.mem_singleton, hedges]

theorem Indexed.isWithout_removeEdge (h : g.Indexed) {e : EdgeId} (hok : g.removeEdge e = .ok later) :
    later.IsWithout g [] [e] := by
  refine h.isWithout (h.removeEdge hok) ?_
  have happly : g.apply (.removeEdge e) = later := by rw [Graph.apply, hok]
  rw [← happly, h.plain_apply, Plain.apply]
  simp [plain]

/-! ## Operations in place -/

/-- What an operation hands back. -/
inductive Reply where
  | vertex (v : VertexId)
  | edge (e : EdgeId)
  | nothing

/-- An operation in place. -/
def perform : Operation → Change Reply
  | .addVertex labels properties => return .vertex (← Change.addVertex labels properties)
  | .addEdge src dst directed labels properties =>
    return .edge (← Change.addEdge src dst directed labels properties)
  | .removeVertex v => do
    Change.removeVertex v
    return .nothing
  | .removeEdge e => do
    Change.removeEdge e
    return .nothing
  | .setSchema s => do
    modify (·.setSchema s)
    return .nothing

/-- Operations in place one after another, also after one that fails: what each of them answers, and the
graph in the end. -/
def performAll : List Operation → Graph → List (Except GraphError Reply) × Graph
  | [], g => ([], g)
  | operation :: rest, g =>
    let (reply, g) := (perform operation).run g
    let (replies, g) := performAll rest g
    (reply :: replies, g)

/-- The vertex that was added. -/
def Reply.vertex? : Except GraphError Reply → Option VertexId
  | .ok (.vertex v) => some v
  | _ => none

/-- The edge that was added. -/
def Reply.edge? : Except GraphError Reply → Option EdgeId
  | .ok (.edge e) => some e
  | _ => none

/-- The numbers that a counter gives out on the way from one state to a later one. -/
structure Counted (numbers : List Nat) (first next : Nat) : Prop where
  numbers_eq : numbers = List.range' first numbers.length
  next_eq : next = first + numbers.length

namespace Counted

theorem none (first : Nat) : Counted [] first first := ⟨rfl, rfl⟩

theorem one (first : Nat) : Counted [first] first (first + 1) := ⟨rfl, rfl⟩

theorem append {ns ms : List Nat} {first middle next : Nat} (h : Counted ns first middle)
    (h' : Counted ms middle next) : Counted (ns ++ ms) first next where
  numbers_eq := by
    have hms : ms = List.range' (first + ns.length) ms.length := h.next_eq ▸ h'.numbers_eq
    rw [List.length_append, ← List.range'_append_1, ← h.numbers_eq, ← hms]
  next_eq := by rw [h'.next_eq, h.next_eq, List.length_append, Nat.add_assoc]

theorem getElem?_eq {ns : List Nat} {first next i n : Nat} (h : Counted ns first next)
    (hi : ns[i]? = some n) : n = first + i := by
  obtain ⟨hlt, -⟩ := List.getElem?_eq_some_iff.mp hi
  rw [h.numbers_eq, List.getElem?_range' hlt, Nat.one_mul] at hi
  exact (Option.some.inj hi).symm

end Counted

/-- The numbers of the vertices that were added. -/
def addedVertices (replies : List (Except GraphError Reply)) : List Nat :=
  (replies.filterMap Reply.vertex?).map (·.number)

/-- The numbers of the edges that were added. -/
def addedEdges (replies : List (Except GraphError Reply)) : List Nat :=
  (replies.filterMap Reply.edge?).map (·.number)

theorem of_addEdge {src dst : VertexId} {directed : Bool} {labels : Labels} {properties : Properties}
    {e : EdgeId} (hok : g.addEdge src dst directed labels properties = .ok (e, later)) :
    e = ⟨g.nextEdge⟩ ∧ later.nextVertex = g.nextVertex ∧ later.nextEdge = g.nextEdge + 1 := by
  unfold addEdge at hok
  split at hok
  · cases hok
  · split at hok
    · cases hok
    · cases hok
      exact ⟨rfl, rfl, rfl⟩

theorem IsWithout.counted {vs : List VertexId} {es : List EdgeId} (h : later.IsWithout g vs es) :
    Counted [] g.nextVertex later.nextVertex ∧ Counted [] g.nextEdge later.nextEdge := by
  rw [h.nextVertex, h.nextEdge]
  exact ⟨.none _, .none _⟩

/-- An operation in place leaves the graph behind that it makes of the whole graph, and gives out the
next number for what it adds. -/
theorem Indexed.run_perform (h : g.Indexed) (operation : Operation) :
    ∃ reply, (perform operation).run g = (reply, g.apply operation) ∧
      Counted (addedVertices [reply]) g.nextVertex (g.apply operation).nextVertex ∧
      Counted (addedEdges [reply]) g.nextEdge (g.apply operation).nextEdge := by
  cases operation with
  | addVertex labels properties =>
    simp only [perform, Change.run_bind, Change.run_addVertex, Graph.apply]
    exact ⟨_, rfl, .one _, .none _⟩
  | addEdge src dst directed labels properties =>
    simp only [perform, Change.run_bind, Change.run_addEdge, Graph.apply]
    cases hok : g.addEdge src dst directed labels properties with
    | error e => exact ⟨_, rfl, .none _, .none _⟩
    | ok added =>
      obtain ⟨hid, hvertex, hedge⟩ := of_addEdge hok
      refine ⟨_, rfl, ?_, ?_⟩
      · simp only [hvertex]
        exact .none _
      · simp only [hid, hedge]
        exact .one _
  | removeVertex v =>
    simp only [perform, Change.run_bind, Change.run_removeVertex, Graph.apply]
    cases hok : g.removeVertex v with
    | error e => exact ⟨_, rfl, .none _, .none _⟩
    | ok later => exact ⟨_, rfl, (h.isWithout_removeVertex hok).counted⟩
  | removeEdge e =>
    simp only [perform, Change.run_bind, Change.run_removeEdge, Graph.apply]
    cases hok : g.removeEdge e with
    | error e => exact ⟨_, rfl, .none _, .none _⟩
    | ok later => exact ⟨_, rfl, (h.isWithout_removeEdge hok).counted⟩
  | setSchema s => exact ⟨_, rfl, .none _, .none _⟩

theorem Built.run_performAll (h : g.Built) (operations : List Operation) :
    ∃ replies, performAll operations g = (replies, operations.foldl Graph.apply g) ∧
      Counted (addedVertices replies) g.nextVertex (operations.foldl Graph.apply g).nextVertex ∧
      Counted (addedEdges replies) g.nextEdge (operations.foldl Graph.apply g).nextEdge := by
  induction operations generalizing g with
  | nil => exact ⟨[], rfl, .none _, .none _⟩
  | cons operation operations ih =>
    obtain ⟨reply, hrun, hvertices, hedges⟩ := h.indexed.run_perform operation
    obtain ⟨replies, hall, hvertices', hedges'⟩ := ih (h.apply operation)
    have hcons : reply :: replies = [reply] ++ replies := rfl
    refine ⟨reply :: replies, ?_, ?_, ?_⟩
    · simp only [performAll, hrun, hall, List.foldl_cons]
    · rw [hcons, addedVertices, List.filterMap_append, List.map_append]
      exact hvertices.append hvertices'
    · rw [hcons, addedEdges, List.filterMap_append, List.map_append]
      exact hedges.append hedges'

/-! ## What operations touch -/

/-- A graph in which an operation in place touches only what it names, and nothing if it fails. -/
structure TouchesNamed (g : Graph) : Prop where
  /-- A vertex goes with the edges that have it as an end. -/
  removeVertex : ∀ v, g.contains v = true →
    ∃ later, (Change.removeVertex v).run g = (.ok (), later) ∧ later.IsWithout g [v] (g.edgesAt v)
  removeEdge : ∀ e, (g.edge? e).isSome = true →
    ∃ later, (Change.removeEdge e).run g = (.ok (), later) ∧ later.IsWithout g [] [e]
  removeVertex_absent : ∀ v, g.contains v = false →
    (Change.removeVertex v).run g = (.error (.noVertex v), g)
  removeEdge_absent : ∀ e, (g.edge? e).isSome = false →
    (Change.removeEdge e).run g = (.error (.noEdge e), g)
  addEdge_noSource : ∀ src dst directed labels properties, g.contains src = false →
    (Change.addEdge src dst directed labels properties).run g = (.error (.noSource src), g)
  addEdge_noTarget : ∀ src dst directed labels properties, g.contains src = true →
    g.contains dst = false →
    (Change.addEdge src dst directed labels properties).run g = (.error (.noTarget dst), g)

theorem Indexed.touchesNamed (h : g.Indexed) : g.TouchesNamed where
  removeVertex v hv := by
    obtain ⟨x, hx⟩ := Option.isSome_iff_exists.mp hv
    obtain ⟨later, hok⟩ : ∃ later, g.removeVertex v = .ok later := ⟨_, by rw [Graph.removeVertex, hx]⟩
    exact ⟨later, by rw [Change.run_removeVertex, hok], h.isWithout_removeVertex hok⟩
  removeEdge e he := by
    have hok : g.removeEdge e = .ok (g.detach e) := if_pos he
    exact ⟨g.detach e, by rw [Change.run_removeEdge, hok], h.isWithout_removeEdge hok⟩
  removeVertex_absent v hv := by
    have hnone : g.vertex? v = none := by simpa [contains] using hv
    rw [Change.run_removeVertex, Graph.removeVertex, hnone]
  removeEdge_absent e he := by
    have hfail : g.removeEdge e = .error (.noEdge e) := if_neg (by simp [he])
    rw [Change.run_removeEdge, hfail]
  addEdge_noSource src dst directed labels properties hsrc := by
    rw [Change.run_addEdge, Graph.addEdge, hsrc]
    rfl
  addEdge_noTarget src dst directed labels properties hsrc hdst := by
    rw [Change.run_addEdge, Graph.addEdge, hsrc, hdst]
    rfl

/-- **An operation touches only what it names.** After any operations in place, of which some may have
failed, the n-th vertex and the n-th edge that were ever added had the number n, a removal takes out what
it names and nothing else, and an operation that fails leaves the graph as it was. -/
theorem performAll_named (operations : List Operation) :
    let (replies, g) := performAll operations .empty
    g = run operations ∧
      (∀ i n, (addedVertices replies)[i]? = some n → n = i + 1) ∧
      (∀ i n, (addedEdges replies)[i]? = some n → n = i + 1) ∧ g.TouchesNamed := by
  obtain ⟨replies, hrun, hvertices, hedges⟩ := Built.empty.run_performAll operations
  rw [hrun]
  refine ⟨rfl, fun i n hn => ?_, fun i n hn => ?_, (built_run operations).indexed.touchesNamed⟩
  · rw [hvertices.getElem?_eq hn]
    exact Nat.add_comm ..
  · rw [hedges.getElem?_eq hn]
    exact Nat.add_comm ..

end Graph

end GraphPatterns
