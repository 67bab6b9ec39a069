/-
A graph without indexes. It keeps its vertices and edges in the order in which they were added, and each
question is answered by a scan of all of them. A graph with indexes keeps the same vertices and edges
through any operations, failed ones among them, and reads off its indexes what a scan finds
(`Graph.run_readsAsScanned`). In particular each edge that may be crossed from a vertex is listed there
exactly once.
-/
import GraphPatterns.Proofs.GraphIndex
import Mathlib.Data.List.Count

namespace GraphPatterns

theorem IdIndex.Lists.isEmpty_entry {κ ι α : Type} [DecidableEq κ] {index : IdIndex κ ι} {id : α → ι}
    {belongs : κ → α → Bool} {xs : List α} (h : index.Lists id belongs xs) {key : κ} :
    (!(index.entry key).isEmpty) = true ↔ ∃ x ∈ xs, belongs key x = true := by
  rw [h key]
  simp

/-! ## Scans -/

namespace Edge

/-- Whether the edge may be crossed from a vertex in one of the directions allowed. -/
def isCrossable (v : VertexId) (d : Direction) (e : Edge) : Bool :=
  d.allowsRight && e.leaves v || d.allowsLeft && e.enters v || d.allowsUndirected && e.meets v

/-- An edge without direction leads to the end opposite to the one that it is crossed from. -/
theorem otherEnd?_of_meets {v : VertexId} {e : Edge} (h : e.meets v = true) :
    e.otherEnd? v = some (if e.src = v then e.dst else e.src) := by
  have hends : e.src = v ∨ e.dst = v := by simpa using (Bool.and_eq_true_iff.mp h).2
  by_cases hsrc : e.src = v
  · simp [otherEnd?, hsrc]
  · have hdst : e.dst = v := hends.resolve_left hsrc
    simp [otherEnd?, hsrc, hdst, Ne.symm hsrc]

/-- Of the three ways in which an edge may be crossed from a vertex at most one lists it. -/
theorem listed_once (e : Edge) (v : VertexId) (d : Direction) :
    (if d.allowsRight && e.leaves v then 1 else 0) +
      (if d.allowsLeft && (e.enters v && !(d.allowsRight && e.isSelfLoop)) then 1 else 0) +
      (if d.allowsUndirected && e.meets v then 1 else 0) = if e.isCrossable v d then 1 else 0 := by
  by_cases hd : e.directed = true
  · have hmeets : e.meets v = false := by simp [meets, hd]
    have hleaves : e.leaves v = decide (e.src = v) := by simp [leaves, hd]
    have henters : e.enters v = decide (e.dst = v) := by simp [enters, hd]
    rw [isCrossable, hmeets, hleaves, henters, isSelfLoop]
    -- An edge that both leaves and enters the vertex is a self-loop.
    by_cases hsrc : e.src = v <;> by_cases hdst : e.dst = v
    · cases d.allowsRight <;> cases d.allowsLeft <;> simp [hsrc, hdst]
    · simp [hdst]
    · simp [hsrc, hdst]
    · simp [hsrc, hdst]
  · simp [isCrossable, leaves, enters, hd]

end Edge

/-- The vertices with a label. -/
def scanLabel (vertices : List Vertex) (label : String) : List VertexId :=
  (vertices.filter (·.hasLabel label)).map (·.id)

/-- The edges that may be crossed from a vertex, each with the vertex it leads to: those that leave it,
those that enter it, and those without direction. A self-loop that leaves the vertex is not listed again
among those that enter it. -/
def scanNeighbors (edges : List Edge) (v : VertexId) (d : Direction) : List (EdgeId × VertexId) :=
  (if d.allowsRight then (edges.filter (·.leaves v)).map fun e => (e.id, e.dst) else []) ++
    (if d.allowsLeft then
      (edges.filter fun e => e.enters v && !(d.allowsRight && e.isSelfLoop)).map fun e => (e.id, e.src)
    else []) ++
    (if d.allowsUndirected then
      (edges.filter (·.meets v)).map fun e => (e.id, if e.src = v then e.dst else e.src)
    else [])

namespace Graph

/-- A graph that reads off its indexes what a scan of its vertices and edges finds. -/
structure ReadsAsScanned (g : Graph) : Prop where
  ends_mem : ∀ e ∈ g.edges, (∃ x ∈ g.vertices, x.id = e.src) ∧ ∃ x ∈ g.vertices, x.id = e.dst
  withLabel : ∀ label, g.store.withLabel label = scanLabel g.vertices label
  neighbors : ∀ v d, g.store.neighbors v d = scanNeighbors g.edges v d
  /-- An edge that may be crossed is listed once, another one is not. -/
  count_neighbors : ∀ v d, ∀ e ∈ g.edges,
    ((g.store.neighbors v d).map (·.1)).count e.id = if e.isCrossable v d then 1 else 0
  outDegree : ∀ v, g.edgeIndex.outDegree v = g.edges.countP (·.leaves v)
  inDegree : ∀ v, g.edgeIndex.inDegree v = g.edges.countP (·.enters v)
  knowsLabel : ∀ label, g.store.knowsLabel label = true ↔
    (∃ x ∈ g.vertices, label ∈ x.labels) ∨ (∃ e ∈ g.edges, label ∈ e.labels) ∨
      ∃ s, g.schema = some s ∧ s.declaresLabel label = true

/-! ## Runs -/

/-- An operation on a graph. -/
inductive Operation where
  | addVertex (labels : Labels) (properties : Properties)
  | addEdge (src dst : VertexId) (directed : Bool) (labels : Labels) (properties : Properties)
  | removeVertex (v : VertexId)
  | removeEdge (e : EdgeId)
  | setSchema (s : Schema)

/-- The graph after an operation. One that fails leaves the graph as it was. -/
def apply (g : Graph) : Operation → Graph
  | .addVertex labels properties => (g.addVertex labels properties).2
  | .addEdge src dst directed labels properties =>
    match g.addEdge src dst directed labels properties with
    | .ok (_, later) => later
    | .error _ => g
  | .removeVertex v =>
    match g.removeVertex v with
    | .ok later => later
    | .error _ => g
  | .removeEdge e =>
    match g.removeEdge e with
    | .ok later => later
    | .error _ => g
  | .setSchema s => g.setSchema s

/-- The graph after some operations, from the first one to the last. -/
def run (operations : List Operation) : Graph := operations.foldl apply .empty

variable {g : Graph}

theorem Built.apply (h : g.Built) (operation : Operation) : (g.apply operation).Built := by
  cases operation with
  | addVertex labels properties => exact h.addVertex labels properties
  | addEdge src dst directed labels properties =>
    simp only [Graph.apply]
    split
    · next hok => exact h.addEdge hok
    · exact h
  | removeVertex v =>
    simp only [Graph.apply]
    split
    · next hok => exact h.removeVertex hok
    · exact h
  | removeEdge e =>
    simp only [Graph.apply]
    split
    · next hok => exact h.removeEdge hok
    · exact h
  | setSchema s => exact h.setSchema s

theorem built_run (operations : List Operation) : (run operations).Built := by
  have key : ∀ g : Graph, g.Built → (operations.foldl Graph.apply g).Built := by
    induction operations with
    | nil => exact fun _ h => h
    | cons operation operations ih => exact fun g h => ih (g.apply operation) (h.apply operation)
  exact key .empty .empty

/-! ## Graphs without indexes -/

/-- The vertices and edges of a graph, in the order in which they were added. -/
structure Plain where
  vertices : List Vertex := []
  edges : List Edge := []
  schema : Option Schema := none
  nextVertex : Nat := 1
  nextEdge : Nat := 1

/-- Whether a vertex is there. -/
def Plain.contains (p : Plain) (v : VertexId) : Bool := p.vertices.any (·.id = v)

/-- An operation on a graph without indexes. An edge needs both its ends, and goes with each of them. -/
def Plain.apply (p : Plain) : Operation → Plain
  | .addVertex labels properties =>
    { p with
      vertices := p.vertices ++ [⟨⟨p.nextVertex⟩, labels, properties⟩]
      nextVertex := p.nextVertex + 1 }
  | .addEdge src dst directed labels properties =>
    if p.contains src && p.contains dst then
      { p with
        edges := p.edges ++ [⟨⟨p.nextEdge⟩, labels, src, dst, directed, properties⟩]
        nextEdge := p.nextEdge + 1 }
    else p
  | .removeVertex v =>
    { p with
      vertices := p.vertices.filter (·.id ≠ v)
      edges := p.edges.filter fun e => e.src ≠ v && e.dst ≠ v }
  | .removeEdge e => { p with edges := p.edges.filter (·.id ≠ e) }
  | .setSchema s => { p with schema := some s }

/-- The graph without its indexes. -/
def plain (g : Graph) : Plain := ⟨g.vertices, g.edges, g.schema, g.nextVertex, g.nextEdge⟩

theorem contains_plain (g : Graph) (v : VertexId) : g.plain.contains v = g.contains v := by
  rw [Bool.eq_iff_iff, contains_iff]
  simp [Plain.contains, plain]

theorem plain_detach (g : Graph) (i : EdgeId) :
    (g.detach i).plain = { g.plain with edges := g.edges.filter (·.id ≠ i) } := by
  obtain ⟨hvertices, -, hnext⟩ := vertices_detach g i
  have hkept : (g.detach i).schema = g.schema ∧ (g.detach i).nextEdge = g.nextEdge := by
    unfold detach
    split <;> exact ⟨rfl, rfl⟩
  rw [plain, hvertices, hnext, edges_detach, hkept.1, hkept.2]
  rfl

theorem plain_foldl_detach (g : Graph) (is : List EdgeId) :
    (is.foldl detach g).plain = { g.plain with edges := g.edges.filter (·.id ∉ is) } := by
  induction is generalizing g with
  | nil => simp [plain]
  | cons i is ih =>
    have hedges : (g.detach i).edges.filter (·.id ∉ is) = g.edges.filter (·.id ∉ i :: is) :=
      (edges_foldl_detach (g.detach i) is).symm.trans (edges_foldl_detach g (i :: is))
    rw [List.foldl_cons, ih, plain_detach, hedges]

/-- A vertex that is not there is no end of an edge. -/
theorem Indexed.plain_removeVertex (h : g.Indexed) {v : VertexId} (hv : g.vertex? v = none) :
    g.plain.apply (.removeVertex v) = g.plain := by
  have hout : v ∉ g.vertices.map (·.id) := fun hmem => by
    rw [← contains_iff, contains, hv] at hmem
    cases hmem
  have hvertices : g.vertices.filter (·.id ≠ v) = g.vertices :=
    List.filter_eq_self.mpr fun x hx => decide_eq_true fun hid => hout (hid ▸ List.mem_map_of_mem hx)
  have hedges : (g.edges.filter fun e => e.src ≠ v && e.dst ≠ v) = g.edges := by
    refine List.filter_eq_self.mpr fun e he => ?_
    rw [Bool.and_eq_true, decide_eq_true_eq, decide_eq_true_eq]
    exact ⟨fun hsrc => hout (hsrc ▸ h.src_mem e he), fun hdst => hout (hdst ▸ h.dst_mem e he)⟩
  simp only [Plain.apply, plain, hvertices, hedges]

/-- **An operation does the same with indexes as without.** -/
theorem Indexed.plain_apply (h : g.Indexed) (operation : Operation) :
    (g.apply operation).plain = g.plain.apply operation := by
  cases operation with
  | addVertex labels properties => rfl
  | addEdge src dst directed labels properties =>
    simp only [Graph.apply, Graph.addEdge, Plain.apply, contains_plain]
    by_cases hsrc : g.contains src = true <;> by_cases hdst : g.contains dst = true <;>
      simp [hsrc, hdst, plain]
  | removeVertex v =>
    simp only [Graph.apply, Graph.removeVertex]
    cases hv : g.vertex? v with
    | none => exact (h.plain_removeVertex hv).symm
    | some x =>
      simp only [plain_foldl_detach]
      have hedges : g.edges.filter (·.id ∉ g.incident v) =
          g.edges.filter fun e => e.src ≠ v && e.dst ≠ v := by
        refine List.filter_congr fun e he => ?_
        simp [h.edges.mem_incident he v]
      rw [hedges]
      rfl
  | removeEdge e =>
    simp only [Graph.apply, Graph.removeEdge]
    have hdetach := g.plain_detach e
    split
    · next later hok =>
      split at hok
      · cases hok
        exact hdetach
      · cases hok
    · next hok =>
      split at hok
      · cases hok
      · next hnone =>
        -- There is no such edge, so detaching it changes nothing.
        have hsame : g.detach e = g := by
          rw [detach, Option.not_isSome_iff_eq_none.mp hnone]
        rw [hsame] at hdetach
        exact hdetach
  | setSchema s => rfl

/-- The graph without indexes after some operations. -/
def Plain.run (operations : List Operation) : Plain := operations.foldl apply {}

theorem plain_run (operations : List Operation) : (run operations).plain = .run operations := by
  have key : ∀ g : Graph, g.Built →
      (operations.foldl Graph.apply g).plain = operations.foldl Plain.apply g.plain := by
    induction operations with
    | nil => exact fun _ _ => rfl
    | cons operation operations ih =>
      intro g h
      rw [List.foldl_cons, List.foldl_cons, ih (g.apply operation) (h.apply operation),
        h.indexed.plain_apply]
  exact key .empty .empty

/-! ## Edges at a vertex -/

theorem EdgesIndexed.filterMap_entry {κ : Type} [DecidableEq κ] (h : g.EdgesIndexed)
    {index : IdIndex κ EdgeId} {belongs : κ → Edge → Bool} (hindex : index.Lists Edge.id belongs g.edges)
    (key : κ) : (index.entry key).filterMap g.edge? = g.edges.filter (belongs key) := by
  rw [hindex key, List.filterMap_map]
  have hfind : ∀ e ∈ g.edges.filter (belongs key), (g.edge? ∘ Edge.id) e = some e := fun e he =>
    edge?_of_mem h (List.mem_filter.mp he).1
  rw [List.filterMap_congr hfind, List.filterMap_some]

theorem neighbors_eq_scan (h : g.EdgesIndexed) (v : VertexId) (d : Direction) :
    g.store.neighbors v d = scanNeighbors g.edges v d := by
  have hmeets : ((g.edges.filter (·.meets v)).filterMap fun e => (e.otherEnd? v).map fun other =>
      (e.id, other)) = (g.edges.filter (·.meets v)).map fun e =>
        (e.id, if e.src = v then e.dst else e.src) := by
    rw [← List.filterMap_eq_map]
    refine List.filterMap_congr fun e he => ?_
    rw [Edge.otherEnd?_of_meets (List.mem_filter.mp he).2]
    rfl
  simp only [store, Graph.neighbors, scanNeighbors, h.filterMap_entry h.lists.outgoing,
    h.filterMap_entry h.lists.incoming, h.filterMap_entry h.lists.undirected, hmeets,
    List.filter_filter, Bool.and_comm]

/-- An identifier stands once among those of the edges with a property, if its edge has it. -/
theorem EdgesIndexed.count_filter (h : g.EdgesIndexed) {e : Edge} (he : e ∈ g.edges) (p : Edge → Bool) :
    ((g.edges.filter p).map (·.id)).count e.id = if p e then 1 else 0 := by
  have hnodup : ((g.edges.filter p).map (·.id)).Nodup := h.nodup.sublist (List.filter_sublist.map _)
  rw [hnodup.count]
  refine if_congr ⟨fun hmem => ?_, fun hp => ?_⟩ rfl rfl
  · obtain ⟨x, hx, hid⟩ := List.mem_map.mp hmem
    obtain ⟨hx, hp⟩ := List.mem_filter.mp hx
    rwa [List.inj_on_of_nodup_map h.nodup hx he hid] at hp
  · exact List.mem_map_of_mem (List.mem_filter.mpr ⟨he, hp⟩)

theorem count_neighbors (h : g.EdgesIndexed) (v : VertexId) (d : Direction) {e : Edge}
    (he : e ∈ g.edges) :
    ((g.store.neighbors v d).map (·.1)).count e.id = if e.isCrossable v d then 1 else 0 := by
  have counted (allowed : Bool) (p : Edge → Bool) (other : Edge → VertexId) :
      ((if allowed then (g.edges.filter p).map fun e => (e.id, other e) else []).map (·.1)).count e.id =
        if allowed && p e then 1 else 0 := by
    cases allowed with
    | false => rfl
    | true => simpa [Function.comp_def] using h.count_filter he p
  rw [neighbors_eq_scan h, scanNeighbors, List.map_append, List.map_append, List.count_append,
    List.count_append, counted, counted, counted]
  exact e.listed_once v d

/-! ## Labels -/

theorem withLabel_eq_scan (h : g.VerticesIndexed) (label : String) :
    g.store.withLabel label = scanLabel g.vertices label := by
  have hentry : g.store.withLabel label =
      (g.vertices.filter fun x => decide (label ∈ x.labels)).map (·.id) := h.lists label
  rw [hentry, scanLabel]
  exact congrArg (List.map _) (List.filter_congr fun x _ => by simp [Vertex.hasLabel])

theorem knowsLabel_iff (h : g.Indexed) (label : String) : g.store.knowsLabel label = true ↔
    (∃ x ∈ g.vertices, label ∈ x.labels) ∨ (∃ e ∈ g.edges, label ∈ e.labels) ∨
      ∃ s, g.schema = some s ∧ s.declaresLabel label = true := by
  have hvertices : g.vertexIndex.hasLabel label = true ↔ ∃ x ∈ g.vertices, label ∈ x.labels :=
    h.vertices.lists.isEmpty_entry.trans (by simp)
  have hedges : g.edgeIndex.hasLabel label = true ↔ ∃ e ∈ g.edges, label ∈ e.labels :=
    h.edges.lists.byLabel.isEmpty_entry.trans (by simp)
  simp only [store, knowsLabel, Bool.or_eq_true, hvertices, hedges, Option.any_eq_true, or_assoc]

/-- **A graph is read as if it had no indexes.** After any operations, whether they succeed or fail, the
graph reads off its indexes what a scan of its vertices and edges finds, in the same order. -/
theorem run_readsAsScanned (operations : List Operation) :
    (run operations).plain = .run operations ∧ (run operations).ReadsAsScanned := by
  have hbuilt := built_run operations
  have hindexed := hbuilt.indexed
  have hlists := hindexed.edges.lists
  refine ⟨plain_run operations, ?_⟩
  exact {
    ends_mem := fun e he =>
      ⟨List.mem_map.mp (hindexed.src_mem e he), List.mem_map.mp (hindexed.dst_mem e he)⟩
    withLabel := withLabel_eq_scan hindexed.vertices
    neighbors := neighbors_eq_scan hindexed.edges
    count_neighbors := fun v d _ he => count_neighbors hindexed.edges v d he
    outDegree := fun v => by
      rw [EdgeIndex.outDegree, hlists.outgoing v, List.length_map, List.countP_eq_length_filter]
    inDegree := fun v => by
      rw [EdgeIndex.inDegree, hlists.incoming v, List.length_map, List.countP_eq_length_filter]
    knowsLabel := knowsLabel_iff hindexed }

end Graph

end GraphPatterns
