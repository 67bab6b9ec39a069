/-
The indexes of a graph list what a scan of its vertices and edges would find, in the same order
(`Graph.Indexed`). Every operation keeps them so, therefore they are so in every graph that was built from
the empty one (`Graph.Built.indexed`), and in such a graph both ends of every edge are there.

An identifier is in an entry only if its element is scanned for that entry, so dropping it from the
entries of its element drops it from all (`IdIndex.entry_foldl_drop`).
-/
import GraphPatterns.Graph.Basic
import Mathlib.Data.List.Basic
import Mathlib.Data.List.Nodup

namespace GraphPatterns

/-! ## Entries -/

namespace IdIndex

variable {κ ι : Type} [DecidableEq κ] [DecidableEq ι]

theorem entry_pushNew (index : IdIndex κ ι) (key other : κ) (id : ι) :
    (index.pushNew key id).entry other =
      if key = other ∧ id ∉ index.entry other then index.entry other ++ [id]
      else index.entry other := by
  unfold pushNew
  by_cases hmem : id ∈ index.entry key
  · rw [if_pos hmem, if_neg fun h => h.2 (h.1 ▸ hmem)]
  · rw [if_neg hmem, entry_push]
    by_cases h : key = other
    · subst h
      rw [if_pos rfl, if_pos ⟨rfl, hmem⟩]
    · rw [if_neg h, if_neg fun hc => h hc.1]

theorem entry_foldl_pushNew (index : IdIndex κ ι) (keys : List κ) (other : κ) (id : ι) :
    (keys.foldl (fun index key => index.pushNew key id) index).entry other =
      if other ∈ keys ∧ id ∉ index.entry other then index.entry other ++ [id]
      else index.entry other := by
  induction keys generalizing index with
  | nil => simp
  | cons key keys ih =>
    rw [List.foldl_cons, ih, entry_pushNew]
    by_cases h : key = other
    · subst h
      by_cases hmem : id ∈ index.entry key <;> simp [hmem]
    · simp [h, Ne.symm h]

theorem filter_ne_self {ids : List ι} {id : ι} (h : id ∉ ids) : ids.filter (· ≠ id) = ids :=
  List.filter_eq_self.mpr fun a ha => by simpa using fun ha' : a = id => h (ha' ▸ ha)

/-- An identifier that is dropped from all entries in which it stands is gone from every entry. -/
theorem entry_foldl_drop (index : IdIndex κ ι) (keys : List κ) (other : κ) (id : ι)
    (h : id ∈ index.entry other → other ∈ keys) :
    (keys.foldl (fun index key => index.drop key id) index).entry other =
      (index.entry other).filter (· ≠ id) := by
  induction keys generalizing index with
  | nil => exact (filter_ne_self fun hmem => List.not_mem_nil (h hmem)).symm
  | cons key keys ih =>
    rw [List.foldl_cons, ih, entry_drop]
    · split
      · simp [List.filter_filter]
      · rfl
    · intro hmem
      rw [entry_drop] at hmem
      split at hmem
      · simp at hmem
      · next hne => exact (List.mem_cons.mp (h hmem)).resolve_left (Ne.symm hne)

end IdIndex

theorem find?_of_nodup {α ι : Type} [DecidableEq ι] {id : α → ι} {xs : List α}
    (h : (xs.map id).Nodup) {x : α} (hx : x ∈ xs) : xs.find? (id · = id x) = some x := by
  cases hfind : xs.find? (id · = id x) with
  | none =>
    have := List.find?_eq_none.mp hfind x hx
    simp at this
  | some y =>
    have hid : id y = id x := by simpa using List.find?_some hfind
    rw [List.inj_on_of_nodup_map h (List.mem_of_find?_eq_some hfind) hx hid]

/-! ## The indexes -/

/-- Every entry lists the elements that belong under its key, in order. -/
def IdIndex.Lists {κ ι α : Type} [DecidableEq κ] (index : IdIndex κ ι) (id : α → ι)
    (belongs : κ → α → Bool) (xs : List α) : Prop :=
  ∀ key, index.entry key = (xs.filter (belongs key)).map id

namespace IdIndex.Lists

variable {κ ι α : Type} [DecidableEq κ] {index : IdIndex κ ι} {id : α → ι}
  {belongs : κ → α → Bool} {xs : List α}

theorem mem (h : index.Lists id belongs xs) {x : α} {key : κ} (hx : x ∈ xs)
    (hkey : belongs key x = true) : id x ∈ index.entry key := by
  rw [h key]
  exact List.mem_map_of_mem (List.mem_filter.mpr ⟨hx, hkey⟩)

theorem append {index' : IdIndex κ ι} {x : α} (h : index.Lists id belongs xs)
    (hentry : ∀ key, index'.entry key =
      if belongs key x then index.entry key ++ [id x] else index.entry key) :
    index'.Lists id belongs (xs ++ [x]) := by
  intro key
  rw [hentry key, h key]
  by_cases hx : belongs key x = true <;> simp [List.filter_append, hx]

variable [DecidableEq ι]

theorem pushNew {x : α} (h : index.Lists id belongs xs) (hnew : ∀ y ∈ xs, id y ≠ id x)
    {keys : List κ} (hkeys : ∀ key, belongs key x = decide (key ∈ keys)) :
    IdIndex.Lists (keys.foldl (fun index key => index.pushNew key (id x)) index) id belongs
      (xs ++ [x]) := by
  refine h.append fun key => ?_
  have hfresh : id x ∉ index.entry key := fun hmem => by
    rw [h key] at hmem
    obtain ⟨y, hy, hyx⟩ := List.mem_map.mp hmem
    exact hnew y (List.mem_filter.mp hy).1 hyx
  rw [entry_foldl_pushNew, hkeys]
  by_cases hkey : key ∈ keys <;> simp [hkey, hfresh]

theorem drop {x : α} (h : index.Lists id belongs xs) (hnodup : (xs.map id).Nodup) (hx : x ∈ xs)
    (keys : List κ) (hkeys : ∀ key, belongs key x = true → key ∈ keys) :
    IdIndex.Lists (keys.foldl (fun index key => index.drop key (id x)) index) id belongs
      (xs.filter (id · ≠ id x)) := by
  intro key
  have hmem (hin : id x ∈ index.entry key) : key ∈ keys := by
    rw [h key] at hin
    obtain ⟨y, hy, hyx⟩ := List.mem_map.mp hin
    obtain ⟨hy, hbelongs⟩ := List.mem_filter.mp hy
    rw [List.inj_on_of_nodup_map hnodup hy hx hyx] at hbelongs
    exact hkeys key hbelongs
  rw [entry_foldl_drop index keys key (id x) hmem, h key, List.filter_map, List.filter_filter,
    List.filter_filter]
  refine congrArg (List.map id) (List.filter_congr fun y _ => ?_)
  exact Bool.and_comm ..

end IdIndex.Lists

/-- The entries of labels list the vertices with that label. -/
def VertexIndex.Lists (index : VertexIndex) (vertices : List Vertex) : Prop :=
  index.byLabel.Lists (·.id) (fun label x => label ∈ x.labels) vertices

namespace VertexIndex.Lists

variable {index : VertexIndex} {vertices : List Vertex}

theorem byLabel_add (index : VertexIndex) (v : VertexId) (labels : Labels) :
    (index.add v labels).byLabel =
      labels.foldl (fun index label => index.pushNew label v) index.byLabel := by
  unfold add
  induction labels generalizing index with
  | nil => rfl
  | cons label labels ih => exact ih (index.addLabel label v)

theorem add (h : index.Lists vertices) (x : Vertex) (hnew : ∀ y ∈ vertices, y.id ≠ x.id) :
    (index.add x.id x.labels).Lists (vertices ++ [x]) := by
  rw [VertexIndex.Lists, byLabel_add]
  exact IdIndex.Lists.pushNew h hnew fun _ => rfl

theorem remove (h : index.Lists vertices) (hnodup : (vertices.map (·.id)).Nodup) {x : Vertex}
    (hx : x ∈ vertices) :
    (index.remove x.id x.labels).Lists (vertices.filter (·.id ≠ x.id)) :=
  IdIndex.Lists.drop h hnodup hx x.labels fun _ => of_decide_eq_true

end VertexIndex.Lists

namespace Edge

/-- Whether the edge is directed and leaves a vertex. -/
def leaves (v : VertexId) (e : Edge) : Bool := e.directed && e.src = v

/-- Whether the edge is directed and enters a vertex. -/
def enters (v : VertexId) (e : Edge) : Bool := e.directed && e.dst = v

/-- Whether the edge has no direction and a vertex is one of its ends. -/
def meets (v : VertexId) (e : Edge) : Bool := !e.directed && (e.src = v || e.dst = v)

end Edge

/-- The entries list the edges that leave, enter or meet a vertex, and those with a label. -/
structure EdgeIndex.Lists (index : EdgeIndex) (edges : List Edge) : Prop where
  outgoing : index.outgoing.Lists (·.id) Edge.leaves edges
  incoming : index.incoming.Lists (·.id) Edge.enters edges
  undirected : index.undirected.Lists (·.id) Edge.meets edges
  byLabel : index.byLabel.Lists (·.id) (fun label e => label ∈ e.labels) edges

namespace EdgeIndex

theorem addLabel_foldl (index : EdgeIndex) (labels : Labels) (e : EdgeId) :
    labels.foldl (fun index label => index.addLabel label e) index =
      { index with
        byLabel := labels.foldl (fun index label => index.pushNew label e) index.byLabel } := by
  induction labels generalizing index with
  | nil => rfl
  | cons label labels ih => exact ih (index.addLabel label e)

/-- An edge without direction is entered at both its ends, at a self-loop once. -/
theorem entry_addUndirected (index : EdgeIndex) (e : EdgeId) (a b v : VertexId) :
    (index.addUndirected e a b).undirected.entry v =
      if a = v ∨ b = v then index.undirected.entry v ++ [e] else index.undirected.entry v := by
  simp only [addUndirected]
  split
  · next hab => simp [IdIndex.entry_push, ← hab]
  · next hab =>
    simp only [IdIndex.entry_push]
    by_cases ha : a = v
    · have hb : b ≠ v := fun hb => hab (ha.trans hb.symm)
      simp [ha, hb]
    · simp [ha]

namespace Lists

variable {index : EdgeIndex} {edges : List Edge}

theorem add (h : index.Lists edges) (e : Edge) (hnew : ∀ x ∈ edges, x.id ≠ e.id) :
    (index.add e).Lists (edges ++ [e]) := by
  have hlabels := h.byLabel.pushNew hnew (x := e) fun _ => rfl
  rw [EdgeIndex.add, addLabel_foldl]
  cases hd : e.directed with
  | true =>
    refine ⟨h.outgoing.append fun v => ?_, h.incoming.append fun v => ?_,
      h.undirected.append fun v => ?_, hlabels⟩
    · simp [addDirected, IdIndex.entry_push, Edge.leaves, hd]
    · simp [addDirected, IdIndex.entry_push, Edge.enters, hd]
    · simp [addDirected, Edge.meets, hd]
  | false =>
    refine ⟨h.outgoing.append fun v => ?_, h.incoming.append fun v => ?_,
      h.undirected.append fun v => ?_, hlabels⟩
    · simp [addUndirected, Edge.leaves, hd]
    · simp [addUndirected, Edge.enters, hd]
    · simp [entry_addUndirected, Edge.meets, hd]

theorem remove (h : index.Lists edges) (hnodup : (edges.map (·.id)).Nodup) {e : Edge}
    (he : e ∈ edges) :
    (index.remove e.id e.src e.dst e.directed e.labels).Lists (edges.filter (·.id ≠ e.id)) := by
  have hlabels := h.byLabel.drop hnodup he e.labels fun _ => of_decide_eq_true
  cases hd : e.directed with
  | true =>
    refine ⟨h.outgoing.drop hnodup he [e.src] fun v hv => ?_,
      h.incoming.drop hnodup he [e.dst] fun v hv => ?_,
      h.undirected.drop hnodup he [] fun v hv => ?_, hlabels⟩
    · simpa [Edge.leaves, hd, eq_comm] using hv
    · simpa [Edge.enters, hd, eq_comm] using hv
    · simp [Edge.meets, hd] at hv
  | false =>
    refine ⟨h.outgoing.drop hnodup he [] fun v hv => ?_, h.incoming.drop hnodup he [] fun v hv => ?_,
      h.undirected.drop hnodup he [e.src, e.dst] fun v hv => ?_, hlabels⟩
    · simp [Edge.leaves, hd] at hv
    · simp [Edge.enters, hd] at hv
    · have hends : e.src = v ∨ e.dst = v := by simpa [Edge.meets, hd] using hv
      rcases hends with rfl | rfl <;> simp

end Lists

end EdgeIndex

/-! ## Graphs -/

namespace Graph

/-- Graphs that come of operations on the empty graph. -/
inductive Built : Graph → Prop where
  | empty : Built .empty
  | setSchema {g : Graph} (s : Schema) (h : Built g) : Built (g.setSchema s)
  | addVertex {g : Graph} (labels : Labels) (properties : Properties) (h : Built g) :
    Built (g.addVertex labels properties).2
  | addEdge {g : Graph} {src dst : VertexId} {directed : Bool} {labels : Labels}
    {properties : Properties} {added : EdgeId × Graph} (h : Built g)
    (hok : g.addEdge src dst directed labels properties = .ok added) : Built added.2
  | removeEdge {g removed : Graph} {e : EdgeId} (h : Built g) (hok : g.removeEdge e = .ok removed) :
    Built removed
  | removeVertex {g removed : Graph} {v : VertexId} (h : Built g)
    (hok : g.removeVertex v = .ok removed) : Built removed

/-- The vertices and their index are as they should be. -/
structure VerticesIndexed (g : Graph) : Prop where
  nodup : (g.vertices.map (·.id)).Nodup
  fresh : ∀ x ∈ g.vertices, x.id.number < g.nextVertex
  lists : g.vertexIndex.Lists g.vertices

/-- The edges and their index are as they should be. -/
structure EdgesIndexed (g : Graph) : Prop where
  nodup : (g.edges.map (·.id)).Nodup
  fresh : ∀ e ∈ g.edges, e.id.number < g.nextEdge
  lists : g.edgeIndex.Lists g.edges

/-- The graph and its indexes are as they should be. -/
structure Indexed (g : Graph) : Prop where
  vertices : g.VerticesIndexed
  edges : g.EdgesIndexed
  src_mem : ∀ e ∈ g.edges, e.src ∈ g.vertices.map (·.id)
  dst_mem : ∀ e ∈ g.edges, e.dst ∈ g.vertices.map (·.id)

variable {g : Graph}

theorem mem_of_vertex? {v : VertexId} {x : Vertex} (h : g.vertex? v = some x) :
    x ∈ g.vertices ∧ x.id = v :=
  ⟨List.mem_of_find?_eq_some h, by simpa using List.find?_some h⟩

theorem mem_of_edge? {i : EdgeId} {e : Edge} (h : g.edge? i = some e) : e ∈ g.edges ∧ e.id = i :=
  ⟨List.mem_of_find?_eq_some h, by simpa using List.find?_some h⟩

theorem vertex?_of_mem (h : g.VerticesIndexed) {x : Vertex} (hx : x ∈ g.vertices) :
    g.vertex? x.id = some x :=
  find?_of_nodup h.nodup hx

theorem edge?_of_mem (h : g.EdgesIndexed) {e : Edge} (he : e ∈ g.edges) : g.edge? e.id = some e :=
  find?_of_nodup h.nodup he

theorem contains_iff {v : VertexId} : g.contains v = true ↔ v ∈ g.vertices.map (·.id) := by
  simp [contains, vertex?, List.find?_isSome]

theorem detach_of_edge? {e : Edge} (h : g.edge? e.id = some e) :
    g.detach e.id = { g with
      edges := g.edges.filter (·.id ≠ e.id)
      edgeIndex := g.edgeIndex.remove e.id e.src e.dst e.directed e.labels } := by
  rw [detach, h]

theorem edges_detach (g : Graph) (i : EdgeId) : (g.detach i).edges = g.edges.filter (·.id ≠ i) := by
  cases h : g.edge? i with
  | none =>
    have hnone : ∀ e ∈ g.edges, e.id ≠ i := by simpa [edge?] using h
    rw [detach, h]
    exact (List.filter_eq_self.mpr fun e he => decide_eq_true (hnone e he)).symm
  | some e => rw [detach, h]

theorem vertices_detach (g : Graph) (i : EdgeId) :
    (g.detach i).vertices = g.vertices ∧ (g.detach i).vertexIndex = g.vertexIndex ∧
      (g.detach i).nextVertex = g.nextVertex := by
  unfold detach
  split <;> exact ⟨rfl, rfl, rfl⟩

theorem EdgesIndexed.detach (h : g.EdgesIndexed) (i : EdgeId) : (g.detach i).EdgesIndexed := by
  cases hi : g.edge? i with
  | none =>
    have hsame : g.detach i = g := by rw [Graph.detach, hi]
    rwa [hsame]
  | some e =>
    obtain ⟨he, rfl⟩ := mem_of_edge? hi
    rw [detach_of_edge? hi]
    exact {
      nodup := h.nodup.sublist (List.filter_sublist.map _)
      fresh := fun x hx => h.fresh x (List.mem_filter.mp hx).1
      lists := h.lists.remove h.nodup he }

theorem EdgesIndexed.foldl_detach (h : g.EdgesIndexed) (is : List EdgeId) :
    (is.foldl Graph.detach g).EdgesIndexed := by
  induction is generalizing g with
  | nil => exact h
  | cons i is ih => exact ih (h.detach i)

theorem edges_foldl_detach (g : Graph) (is : List EdgeId) :
    (is.foldl detach g).edges = g.edges.filter (·.id ∉ is) := by
  induction is generalizing g with
  | nil => simp
  | cons i is ih =>
    rw [List.foldl_cons, ih, edges_detach, List.filter_filter]
    refine List.filter_congr fun e _ => ?_
    simp [not_or, Bool.and_comm]

theorem vertices_foldl_detach (g : Graph) (is : List EdgeId) :
    (is.foldl detach g).vertices = g.vertices ∧ (is.foldl detach g).vertexIndex = g.vertexIndex ∧
      (is.foldl detach g).nextVertex = g.nextVertex := by
  induction is generalizing g with
  | nil => exact ⟨rfl, rfl, rfl⟩
  | cons i is ih =>
    obtain ⟨hv, hi, hn⟩ := vertices_detach g i
    rw [List.foldl_cons, (ih (g.detach i)).1, (ih (g.detach i)).2.1, (ih (g.detach i)).2.2]
    exact ⟨hv, hi, hn⟩

theorem EdgesIndexed.mem_incident (h : g.EdgesIndexed) {e : Edge} (he : e ∈ g.edges) (v : VertexId) :
    e.id ∈ g.incident v ↔ e.src = v ∨ e.dst = v := by
  have listed {index : IdIndex VertexId EdgeId} {belongs : VertexId → Edge → Bool}
      (hindex : index.Lists Edge.id belongs g.edges) : e.id ∈ index.entry v ↔ belongs v e = true := by
    refine ⟨fun hmem => ?_, hindex.mem he⟩
    rw [hindex v] at hmem
    obtain ⟨x, hx, hid⟩ := List.mem_map.mp hmem
    obtain ⟨hx, hbelongs⟩ := List.mem_filter.mp hx
    rwa [List.inj_on_of_nodup_map h.nodup hx he hid] at hbelongs
  rw [incident, List.mem_append, List.mem_append, listed h.lists.outgoing, listed h.lists.incoming,
    listed h.lists.undirected]
  cases hd : e.directed <;> simp [Edge.leaves, Edge.enters, Edge.meets, hd]

/-! ## Operations -/

theorem indexed_empty : Indexed .empty where
  vertices := ⟨.nil, nofun, fun _ => rfl⟩
  edges := ⟨.nil, nofun, fun _ => rfl, fun _ => rfl, fun _ => rfl, fun _ => rfl⟩
  src_mem := nofun
  dst_mem := nofun

namespace Indexed

theorem addVertex (h : g.Indexed) (labels : Labels) (properties : Properties) :
    (g.addVertex labels properties).2.Indexed where
  vertices := by
    have hnew : ∀ x ∈ g.vertices, x.id ≠ ⟨g.nextVertex⟩ := fun x hx hid =>
      Nat.lt_irrefl g.nextVertex (by simpa [hid] using h.vertices.fresh x hx)
    refine ⟨?_, fun x hx => ?_, h.vertices.lists.add ⟨⟨g.nextVertex⟩, labels, properties⟩ hnew⟩
    · simpa [Graph.addVertex, List.nodup_append] using ⟨h.vertices.nodup, hnew⟩
    · rcases List.mem_append.mp hx with hx | hx
      · exact Nat.lt_succ_of_lt (h.vertices.fresh x hx)
      · rw [List.mem_singleton.mp hx]
        exact Nat.lt_succ_self g.nextVertex
  edges := ⟨h.edges.nodup, h.edges.fresh, h.edges.lists⟩
  src_mem e he := by simpa [Graph.addVertex] using .inl (List.mem_map.mp (h.src_mem e he))
  dst_mem e he := by simpa [Graph.addVertex] using .inl (List.mem_map.mp (h.dst_mem e he))

theorem addEdge (h : g.Indexed) {src dst : VertexId} {directed : Bool} {labels : Labels}
    {properties : Properties} {added : EdgeId × Graph}
    (hok : g.addEdge src dst directed labels properties = .ok added) : added.2.Indexed := by
  unfold Graph.addEdge at hok
  split at hok
  · cases hok
  · next hsrc =>
    split at hok
    · cases hok
    · next hdst =>
      cases hok
      simp only [Bool.not_eq_true', Bool.not_eq_false] at hsrc hdst
      have hnew : ∀ x ∈ g.edges, x.id ≠ ⟨g.nextEdge⟩ := fun x hx hid =>
        Nat.lt_irrefl g.nextEdge (by simpa [hid] using h.edges.fresh x hx)
      let e : Edge := ⟨⟨g.nextEdge⟩, labels, src, dst, directed, properties⟩
      refine ⟨⟨h.vertices.nodup, h.vertices.fresh, h.vertices.lists⟩,
        ⟨?_, fun x hx => ?_, h.edges.lists.add e hnew⟩, fun x hx => ?_, fun x hx => ?_⟩
      · simpa [List.nodup_append] using ⟨h.edges.nodup, hnew⟩
      · rcases List.mem_append.mp hx with hx | hx
        · exact Nat.lt_succ_of_lt (h.edges.fresh x hx)
        · rw [List.mem_singleton.mp hx]
          exact Nat.lt_succ_self g.nextEdge
      · rcases List.mem_append.mp hx with hx | hx
        · exact h.src_mem x hx
        · rw [List.mem_singleton.mp hx]
          exact contains_iff.mp hsrc
      · rcases List.mem_append.mp hx with hx | hx
        · exact h.dst_mem x hx
        · rw [List.mem_singleton.mp hx]
          exact contains_iff.mp hdst

theorem removeEdge (h : g.Indexed) {e : EdgeId} {removed : Graph}
    (hok : g.removeEdge e = .ok removed) : removed.Indexed := by
  unfold Graph.removeEdge at hok
  split at hok
  · cases hok
    obtain ⟨hv, hi, hn⟩ := vertices_detach g e
    refine ⟨⟨?_, ?_, ?_⟩, h.edges.detach e, fun x hx => ?_, fun x hx => ?_⟩
    · rw [hv]; exact h.vertices.nodup
    · rw [hv, hn]; exact h.vertices.fresh
    · rw [hv, hi]; exact h.vertices.lists
    · rw [edges_detach] at hx
      rw [hv]
      exact h.src_mem x (List.mem_filter.mp hx).1
    · rw [edges_detach] at hx
      rw [hv]
      exact h.dst_mem x (List.mem_filter.mp hx).1
  · cases hok

/-- A removed vertex takes the edges at it along, so no edge is left without an end. -/
theorem removeVertex (h : g.Indexed) {v : VertexId} {removed : Graph}
    (hok : g.removeVertex v = .ok removed) : removed.Indexed := by
  unfold Graph.removeVertex at hok
  split at hok
  · cases hok
  · next x hx =>
    cases hok
    obtain ⟨hmem, rfl⟩ := mem_of_vertex? hx
    let without : Graph := { g with
      vertices := g.vertices.filter (·.id ≠ x.id)
      vertexIndex := g.vertexIndex.remove x.id x.labels }
    -- In between some edges lack an end, but the index of the edges is in order all the time.
    have hedges : without.EdgesIndexed := ⟨h.edges.nodup, h.edges.fresh, h.edges.lists⟩
    obtain ⟨hv, hi, hn⟩ := vertices_foldl_detach without (g.incident x.id)
    have hleft {e : Edge} (he : e ∈ ((g.incident x.id).foldl detach without).edges) :
        e ∈ g.edges ∧ e.src ≠ x.id ∧ e.dst ≠ x.id := by
      rw [edges_foldl_detach] at he
      obtain ⟨he, hnot⟩ := List.mem_filter.mp he
      exact ⟨he, not_or.mp (mt (h.edges.mem_incident he x.id).mpr (of_decide_eq_true hnot))⟩
    have hkept {w : VertexId} (hw : w ∈ g.vertices.map (·.id)) (hne : w ≠ x.id) :
        w ∈ (g.vertices.filter (·.id ≠ x.id)).map (·.id) := by
      obtain ⟨y, hy, rfl⟩ := List.mem_map.mp hw
      exact List.mem_map_of_mem (List.mem_filter.mpr ⟨hy, decide_eq_true hne⟩)
    refine ⟨⟨?_, ?_, ?_⟩, hedges.foldl_detach _, fun e he => ?_, fun e he => ?_⟩
    · rw [hv]
      exact h.vertices.nodup.sublist (List.filter_sublist.map _)
    · rw [hv, hn]
      exact fun y hy => h.vertices.fresh y (List.mem_filter.mp hy).1
    · rw [hv, hi]
      exact h.vertices.lists.remove h.vertices.nodup hmem
    · rw [hv]
      obtain ⟨he, hsrc, -⟩ := hleft he
      exact hkept (h.src_mem e he) hsrc
    · rw [hv]
      obtain ⟨he, -, hdst⟩ := hleft he
      exact hkept (h.dst_mem e he) hdst

end Indexed

/-- **A graph that was built by operations has its indexes in order.** -/
theorem Built.indexed (h : g.Built) : g.Indexed := by
  induction h with
  | empty => exact indexed_empty
  | setSchema s _ ih => exact ⟨⟨ih.vertices.nodup, ih.vertices.fresh, ih.vertices.lists⟩,
      ⟨ih.edges.nodup, ih.edges.fresh, ih.edges.lists⟩, ih.src_mem, ih.dst_mem⟩
  | addVertex labels properties _ ih => exact ih.addVertex labels properties
  | addEdge _ hok ih => exact ih.addEdge hok
  | removeEdge _ hok ih => exact ih.removeEdge hok
  | removeVertex _ hok ih => exact ih.removeVertex hok

/-! ## What a search reads -/

namespace Indexed

theorem withLabel_subset (h : g.Indexed) (label : String) :
    g.store.withLabel label ⊆ g.store.vertices := by
  intro v hv
  rw [show g.store.withLabel label = _ from h.vertices.lists label] at hv
  obtain ⟨x, hx, rfl⟩ := List.mem_map.mp hv
  exact List.mem_map_of_mem (List.mem_filter.mp hx).1

theorem neighbors_mem (h : g.Indexed) {v : VertexId} {d : Direction} {step : EdgeId × VertexId}
    (hstep : step ∈ g.store.neighbors v d) : step.2 ∈ g.store.vertices := by
  have hedge {ids : List EdgeId} {e : Edge} (he : e ∈ ids.filterMap g.edge?) : e ∈ g.edges := by
    obtain ⟨i, -, hi⟩ := List.mem_filterMap.mp he
    exact (mem_of_edge? hi).1
  simp only [store, Graph.neighbors, List.mem_append] at hstep
  rcases hstep with (hleaves | henters) | hmeets
  · split at hleaves
    · obtain ⟨e, he, rfl⟩ := List.mem_map.mp hleaves
      exact h.dst_mem e (hedge he)
    · cases hleaves
  · split at henters
    · obtain ⟨e, he, rfl⟩ := List.mem_map.mp henters
      exact h.src_mem e (hedge (List.mem_filter.mp he).1)
    · cases henters
  · split at hmeets
    · obtain ⟨e, he, hother⟩ := List.mem_filterMap.mp hmeets
      obtain ⟨w, hw, rfl⟩ := Option.map_eq_some_iff.mp hother
      unfold Edge.otherEnd? at hw
      split at hw
      · cases hw
        exact h.dst_mem e (hedge he)
      · split at hw
        · cases hw
          exact h.src_mem e (hedge he)
        · cases hw
    · cases hmeets

end Indexed

end Graph

end GraphPatterns
