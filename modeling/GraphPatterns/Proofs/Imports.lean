/-
What a document becomes in a new graph (`GraphDocument.importInto_empty`). Import succeeds on a document
that fits together, and then the graph holds exactly its records; otherwise it stops at the first record
that does not fit, and the graph holds exactly those before it.

Both loops keep one invariant: the graph holds the records that have been read (`Graph.Holds`).
-/
import GraphPatterns.Document
import GraphPatterns.Proofs.GraphIndex

namespace GraphPatterns

/-- The labels of a list are kept once each, in the order in which they first stand there. -/
theorem Labels.ofList_eq_eraseDups (names : List String) : ofList names = names.eraseDups := by
  suffices h : ∀ labels : Labels, names.foldl add labels =
      labels ++ (names.filter (· ∉ labels)).eraseDups by simpa [ofList] using h []
  induction names with
  | nil => exact fun labels => (List.append_nil labels).symm
  | cons name names ih =>
    intro labels
    rw [List.foldl_cons, ih, add]
    by_cases hmem : name ∈ labels
    · rw [if_pos hmem, List.filter_cons_of_neg (by simpa using hmem)]
    · rw [if_neg hmem, List.filter_cons_of_pos (by simpa using hmem), List.eraseDups_cons,
        List.filter_filter, List.append_assoc, List.singleton_append]
      refine congrArg (fun rest => labels ++ name :: List.eraseDups rest) ?_
      refine List.filter_congr fun other _ => ?_
      rw [Bool.eq_iff_iff]
      simp [and_comm]

namespace GraphDocument

/-! ## Documents that fit together -/

/-- The keys of some records, in order. -/
def keysOf (records : List VertexRecord) : List String := records.map (·.key)

/-- Both ends of an edge are keys of vertices. -/
def Fits (d : GraphDocument) (r : EdgeRecord) : Prop := r.src ∈ keysOf d.vertices ∧ r.dst ∈ keysOf d.vertices

/-- No key stands for two vertices, and every edge ends at keys of vertices. -/
structure IsSound (d : GraphDocument) : Prop where
  nodup : (keysOf d.vertices).Nodup
  fits : ∀ r ∈ d.edges, d.Fits r

/-- The first fault of a document, with the vertices and edges before it. The vertices stand before all
edges, and the source of an edge before its target. -/
inductive FirstFault (d : GraphDocument) : ImportError → List VertexRecord → List EdgeRecord → Prop
  | repeatedKey {before : List VertexRecord} {r : VertexRecord} {after : List VertexRecord} :
    d.vertices = before ++ r :: after → (keysOf before).Nodup → r.key ∈ keysOf before →
    FirstFault d (.repeatedKey r.key) before []
  | unknownSource {before : List EdgeRecord} {r : EdgeRecord} {after : List EdgeRecord} :
    (keysOf d.vertices).Nodup → d.edges = before ++ r :: after → (∀ e ∈ before, d.Fits e) →
    r.src ∉ keysOf d.vertices → FirstFault d (.unknownKey before.length r.src) d.vertices before
  | unknownTarget {before : List EdgeRecord} {r : EdgeRecord} {after : List EdgeRecord} :
    (keysOf d.vertices).Nodup → d.edges = before ++ r :: after → (∀ e ∈ before, d.Fits e) →
    r.src ∈ keysOf d.vertices → r.dst ∉ keysOf d.vertices →
    FirstFault d (.unknownKey before.length r.dst) d.vertices before

theorem FirstFault.not_isSound {d : GraphDocument} {e : ImportError} {vs : List VertexRecord}
    {es : List EdgeRecord} (h : d.FirstFault e vs es) : ¬ d.IsSound := by
  intro hsound
  cases h with
  | repeatedKey hvertices hnodup hmem =>
    have hkeys := hsound.nodup
    rw [hvertices, keysOf, List.map_append, List.map_cons, List.nodup_append] at hkeys
    exact hkeys.2.2 _ hmem _ List.mem_cons_self rfl
  | @unknownSource before r after hnodup hedges hbefore hsrc =>
    exact hsrc (hsound.fits r (by simp [hedges])).1
  | @unknownTarget before r after hnodup hedges hbefore hsrc hdst =>
    exact hdst (hsound.fits r (by simp [hedges])).2

/-! ## Graphs of records -/

/-- The keys of some records with the vertices that they stand for: the n-th key stands for vertex n. -/
def keyMap (records : List VertexRecord) : KeyMap := records.mapIdx fun i r => (r.key, ⟨i + 1⟩)

end GraphDocument

open GraphDocument

/-- The edge of a record, under the given number. -/
structure Edge.IsOf (e : Edge) (keys : KeyMap) (number : Nat) (r : EdgeRecord) : Prop where
  id : e.id = ⟨number⟩
  labels : e.labels = r.labels.eraseDups
  src : keys.get? r.src = some e.src
  dst : keys.get? r.dst = some e.dst
  directed : e.directed = r.directed
  properties : e.properties = r.properties

/-- The graph consists of the given records: its n-th vertex and its n-th edge have the number n and are
those of the n-th records, and its indexes list them. -/
structure Graph.Holds (g : Graph) (vertices : List VertexRecord) (edges : List EdgeRecord) : Prop where
  vertices_eq : g.vertices = vertices.mapIdx fun i r => ⟨⟨i + 1⟩, r.labels.eraseDups, r.properties⟩
  length_edges : g.edges.length = edges.length
  edge : ∀ j r, edges[j]? = some r → ∃ e : Edge, g.edges[j]? = some e ∧ e.IsOf (keyMap vertices) (j + 1) r
  indexed : g.Indexed
  nextVertex : g.nextVertex = vertices.length + 1
  nextEdge : g.nextEdge = edges.length + 1

/-- The keys of a document and the vertices of a graph, one to one. -/
structure KeyMap.IsBijection (keys : KeyMap) (names : List String) (vs : List VertexId) : Prop where
  keys_eq : keys.keys = names
  vertices_eq : keys.map (·.2) = vs
  nodup_keys : names.Nodup
  nodup_vertices : vs.Nodup

namespace GraphDocument

theorem keyMap_concat (records : List VertexRecord) (r : VertexRecord) :
    keyMap (records ++ [r]) = keyMap records ++ [(r.key, ⟨records.length + 1⟩)] := List.mapIdx_concat

theorem keys_keyMap (records : List VertexRecord) : (keyMap records).keys = keysOf records := by
  refine List.ext_getElem? fun i => ?_
  simp [Assoc.keys, keyMap, keysOf, Function.comp_def]

theorem has_keyMap (records : List VertexRecord) (key : String) :
    (keyMap records).has key = true ↔ key ∈ keysOf records := by
  rw [Assoc.has_iff_mem_keys, keys_keyMap]

theorem nodup_keysOf_concat {records : List VertexRecord} {r : VertexRecord} (h : (keysOf records).Nodup)
    (hr : r.key ∉ keysOf records) : (keysOf (records ++ [r])).Nodup := by
  rw [keysOf, List.map_append, List.nodup_append]
  refine ⟨h, List.nodup_singleton _, fun a ha b hb heq => hr ?_⟩
  rw [List.map_singleton, List.mem_singleton] at hb
  exact hb ▸ heq ▸ ha

end GraphDocument

namespace Graph.Holds

variable {g : Graph} {vertices : List VertexRecord} {edges : List EdgeRecord}

theorem empty : Graph.empty.Holds [] [] :=
  ⟨rfl, rfl, nofun, Graph.indexed_empty, rfl, rfl⟩

theorem vertexIds (h : g.Holds vertices edges) : (keyMap vertices).map (·.2) = g.vertices.map (·.id) := by
  refine List.ext_getElem? fun i => ?_
  simp [h.vertices_eq, keyMap, Function.comp_def]

theorem isBijection (h : g.Holds vertices edges) (hnodup : (keysOf vertices).Nodup) :
    (keyMap vertices).IsBijection (keysOf vertices) (g.vertices.map (·.id)) :=
  ⟨keys_keyMap vertices, h.vertexIds, hnodup, h.indexed.vertices.nodup⟩

theorem contains (h : g.Holds vertices edges) {key : String} {v : VertexId}
    (hkey : (keyMap vertices).get? key = some v) : g.contains v = true := by
  rw [Graph.contains_iff, ← h.vertexIds]
  exact List.mem_map_of_mem (Assoc.mem_of_get? hkey)

theorem addVertex (h : g.Holds vertices []) (r : VertexRecord) :
    (g.addVertex (Labels.ofList r.labels) r.properties).1 = ⟨vertices.length + 1⟩ ∧
      (g.addVertex (Labels.ofList r.labels) r.properties).2.Holds (vertices ++ [r]) [] := by
  refine ⟨congrArg VertexId.mk h.nextVertex, ?_, h.length_edges, nofun, h.indexed.addVertex _ _, ?_,
    h.nextEdge⟩
  · rw [List.mapIdx_concat, ← h.vertices_eq, Graph.addVertex, h.nextVertex, Labels.ofList_eq_eraseDups]
  · rw [List.length_append, List.length_singleton]
    exact congrArg (· + 1) h.nextVertex

theorem addEdge (h : g.Holds vertices edges) {r : EdgeRecord} {src dst : VertexId}
    (hsrc : (keyMap vertices).get? r.src = some src) (hdst : (keyMap vertices).get? r.dst = some dst) :
    ∃ e later, g.addEdge src dst r.directed (Labels.ofList r.labels) r.properties = .ok (e, later) ∧
      later.Holds vertices (edges ++ [r]) ∧ later.schema = g.schema := by
  let edge : Edge := ⟨⟨g.nextEdge⟩, Labels.ofList r.labels, src, dst, r.directed, r.properties⟩
  have hok : g.addEdge src dst r.directed (Labels.ofList r.labels) r.properties = .ok (edge.id, { g with
      edges := g.edges ++ [edge]
      edgeIndex := g.edgeIndex.add edge
      nextEdge := g.nextEdge + 1 }) := by
    rw [Graph.addEdge, h.contains hsrc, h.contains hdst]
    rfl
  refine ⟨_, _, hok, ⟨h.vertices_eq, ?_, fun j record hj => ?_, h.indexed.addEdge hok, h.nextVertex, ?_⟩, rfl⟩
  · simp [h.length_edges]
  · rcases Nat.lt_or_ge j edges.length with hlt | hge
    · rw [List.getElem?_append_left hlt] at hj
      obtain ⟨e, he, hof⟩ := h.edge j record hj
      refine ⟨e, ?_, hof⟩
      rw [List.getElem?_append_left (h.length_edges ▸ hlt), he]
    · rw [List.getElem?_append_right hge, List.getElem?_singleton] at hj
      split at hj
      · next hzero =>
        cases hj
        have hlast : j = edges.length := by omega
        refine ⟨edge, ?_, ⟨?_, Labels.ofList_eq_eraseDups _, hsrc, hdst, rfl, rfl⟩⟩
        · rw [hlast, ← h.length_edges]
          exact List.getElem?_concat_length
        · rw [hlast]
          exact congrArg EdgeId.mk h.nextEdge
      · cases hj
  · rw [List.length_append, List.length_singleton]
    exact congrArg (· + 1) h.nextEdge

theorem setSchema (h : g.Holds vertices edges) (s : Schema) : (g.setSchema s).Holds vertices edges :=
  ⟨h.vertices_eq, h.length_edges, h.edge, ⟨⟨h.indexed.vertices.nodup, h.indexed.vertices.fresh,
    h.indexed.vertices.lists⟩, ⟨h.indexed.edges.nodup, h.indexed.edges.fresh, h.indexed.edges.lists⟩,
    h.indexed.src_mem, h.indexed.dst_mem⟩, h.nextVertex, h.nextEdge⟩

end Graph.Holds

namespace GraphDocument

/-! ## The two loops -/

theorem importVertices_eq {g : Graph} {before : List VertexRecord} (rest : List VertexRecord)
    (h : g.Holds before []) (hnodup : (keysOf before).Nodup) (hschema : g.schema = none) :
    (∃ g', importVertices g (keyMap before) ⟨before.length, 0⟩ rest =
        (g', .ok (keyMap (before ++ rest), ⟨(before ++ rest).length, 0⟩)) ∧
      (keysOf (before ++ rest)).Nodup ∧ g'.Holds (before ++ rest) [] ∧ g'.schema = none) ∨
    ∃ g' earlier r later, importVertices g (keyMap before) ⟨before.length, 0⟩ rest =
        (g', .error (.repeatedKey r.key)) ∧
      before ++ rest = earlier ++ r :: later ∧ (keysOf earlier).Nodup ∧ r.key ∈ keysOf earlier ∧
      g'.Holds earlier [] ∧ g'.schema = none := by
  induction rest generalizing g before with
  | nil => exact .inl ⟨g, by simp [importVertices], by simpa using hnodup, by simpa using h, hschema⟩
  | cons r rest ih =>
    rw [importVertices]
    by_cases hkey : r.key ∈ keysOf before
    · rw [if_pos ((has_keyMap before r.key).mpr hkey)]
      exact .inr ⟨g, before, r, rest, rfl, rfl, hnodup, hkey, h, hschema⟩
    · rw [if_neg ((has_keyMap before r.key).not.mpr hkey)]
      obtain ⟨hid, hadded⟩ := h.addVertex r
      have hgo := ih hadded (nodup_keysOf_concat hnodup hkey) hschema
      rwa [keyMap_concat, ← hid, List.length_append, List.append_assoc] at hgo

theorem endpoint_eq (vertices : List VertexRecord) (place : Nat) (key : String) :
    (∃ v, endpoint (keyMap vertices) place key = .ok v ∧ (keyMap vertices).get? key = some v ∧
      key ∈ keysOf vertices) ∨
      endpoint (keyMap vertices) place key = .error (.unknownKey place key) ∧ key ∉ keysOf vertices := by
  unfold endpoint
  rw [← keys_keyMap]
  cases hget : (keyMap vertices).get? key with
  | none => exact .inr ⟨rfl, Assoc.get?_eq_none_iff.mp hget⟩
  | some v => exact .inl ⟨v, rfl, rfl, List.mem_map_of_mem (Assoc.mem_of_get? hget)⟩

theorem importEdges_eq (d : GraphDocument) {g : Graph} {before rest : List EdgeRecord}
    (hedges : d.edges = before ++ rest) (hbefore : ∀ r ∈ before, d.Fits r) (hnodup : (keysOf d.vertices).Nodup)
    (h : g.Holds d.vertices before) (hschema : g.schema = none) :
    (∃ g', importEdges (keyMap d.vertices) g ⟨d.vertices.length, before.length⟩ before.length rest =
        (g', .ok ⟨d.vertices.length, d.edges.length⟩) ∧
      (∀ r ∈ d.edges, d.Fits r) ∧ g'.Holds d.vertices d.edges ∧ g'.schema = none) ∨
    ∃ g' e earlier, importEdges (keyMap d.vertices) g ⟨d.vertices.length, before.length⟩ before.length rest =
        (g', .error e) ∧
      d.FirstFault e d.vertices earlier ∧ g'.Holds d.vertices earlier ∧ g'.schema = none := by
  induction rest generalizing g before with
  | nil =>
    rw [List.append_nil] at hedges
    exact .inl ⟨g, by rw [importEdges, hedges], hedges ▸ hbefore, hedges ▸ h, hschema⟩
  | cons r rest ih =>
    rw [importEdges]
    rcases endpoint_eq d.vertices before.length r.src with ⟨src, hsrc, hget, hmem⟩ | ⟨hsrc, hmem⟩
    · rcases endpoint_eq d.vertices before.length r.dst with ⟨dst, hdst, hget', hmem'⟩ | ⟨hdst, hmem'⟩
      · obtain ⟨e, later, hok, hlater, hkept⟩ := h.addEdge hget hget'
        simp only [hsrc, hdst, hok]
        have hfits : ∀ x ∈ before ++ [r], d.Fits x := by
          rw [List.forall_mem_append, List.forall_mem_singleton]
          exact ⟨hbefore, hmem, hmem'⟩
        have hgo := ih (by rw [hedges, List.append_assoc, List.singleton_append]) hfits hlater
          (hkept.trans hschema)
        rwa [List.length_append, List.length_singleton] at hgo
      · simp only [hsrc, hdst]
        exact .inr ⟨g, _, before, rfl, .unknownTarget hnodup hedges hbefore hmem hmem', h, hschema⟩
    · simp only [hsrc]
      exact .inr ⟨g, _, before, rfl, .unknownSource hnodup hedges hbefore hmem, h, hschema⟩

/-- **Import builds the graph of the document.** It succeeds exactly on documents that fit together. Then
the graph holds the records and has the schema, the keys stand for its vertices one to one, and the counts
are those of the records. Otherwise the error is the first fault of the document, the graph holds the
records before it, and there is no schema. -/
theorem importInto_empty (d : GraphDocument) :
    match d.importInto .empty with
    | (g, .ok (keys, stats)) =>
      d.IsSound ∧ g.Holds d.vertices d.edges ∧ g.schema = d.schema ∧ keys = keyMap d.vertices ∧
        keys.IsBijection (keysOf d.vertices) (g.vertices.map (·.id)) ∧
        stats = ⟨d.vertices.length, d.edges.length⟩
    | (g, .error e) =>
      ¬ d.IsSound ∧ ∃ vertices edges, d.FirstFault e vertices edges ∧ g.Holds vertices edges ∧
        g.schema = none := by
  rcases importVertices_eq d.vertices .empty List.nodup_nil rfl with
    ⟨g, hrun, hnodup, hg, hschema⟩ | ⟨g, earlier, r, later, hrun, hvertices, hnodup, hmem, hg, hschema⟩
  · rw [List.nil_append] at hrun hnodup hg
    have hread : importVertices .empty [] {} d.vertices =
      (g, .ok (keyMap d.vertices, ⟨d.vertices.length, 0⟩)) := hrun
    rcases d.importEdges_eq (List.nil_append _).symm nofun hnodup hg hschema with
      ⟨g', hrun', hfits, hg', hschema'⟩ | ⟨g', e, earlier, hrun', hfault, hg', hschema'⟩
    · have hread' : importEdges (keyMap d.vertices) g ⟨d.vertices.length, 0⟩ 0 d.edges =
        (g', .ok ⟨d.vertices.length, d.edges.length⟩) := hrun'
      cases hd : d.schema with
      | none =>
        have hall : d.importInto .empty =
            (g', .ok (keyMap d.vertices, ⟨d.vertices.length, d.edges.length⟩)) := by
          simp only [importInto, hread, hread', hd]
        rw [hall]
        exact ⟨⟨hnodup, hfits⟩, hg', hschema', rfl, hg'.isBijection hnodup, rfl⟩
      | some s =>
        have hall : d.importInto .empty =
            (g'.setSchema s, .ok (keyMap d.vertices, ⟨d.vertices.length, d.edges.length⟩)) := by
          simp only [importInto, hread, hread', hd]
        rw [hall]
        exact ⟨⟨hnodup, hfits⟩, hg'.setSchema s, rfl, rfl, hg'.isBijection hnodup, rfl⟩
    · have hread' : importEdges (keyMap d.vertices) g ⟨d.vertices.length, 0⟩ 0 d.edges = (g', .error e) :=
        hrun'
      simp only [importInto, hread, hread']
      exact ⟨hfault.not_isSound, d.vertices, earlier, hfault, hg', hschema'⟩
  · have hread : importVertices .empty [] {} d.vertices = (g, .error (.repeatedKey r.key)) := hrun
    have hfault : d.FirstFault (.repeatedKey r.key) earlier [] := .repeatedKey hvertices hnodup hmem
    simp only [importInto, hread]
    exact ⟨hfault.not_isSound, earlier, [], hfault, hg, hschema⟩

end GraphDocument

end GraphPatterns
