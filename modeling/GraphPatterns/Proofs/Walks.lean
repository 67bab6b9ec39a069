/-
Walks through a graph. A path is a walk in a store if each of its edges joins the vertices before and
after it (`Path.IsWalkIn`). Going on over an edge that the store lists at the last vertex keeps this
(`Walk.IsWalkIn.extend`), and it keeps what a mode asks of a path if the mode allows the step, and only
then (`PathMode.holds_extend_iff`). So a mode may be checked at every step (`PathMode.holds_stepwise`).

What a search has walked since it entered a group is a segment of what it walks from its start.
-/
import GraphPatterns.Proofs.GraphIndex
import GraphPatterns.Proofs.Solutions
import Mathlib.Data.List.Nodup
import Mathlib.Logic.Relation

namespace GraphPatterns

/-! ## Walks in a store -/

/-- Whether an edge lies between two vertices, in one direction or the other. -/
def Store.Joins (store : Store) (e : EdgeId) (a b : VertexId) : Prop :=
  store.ends? e = some (a, b) ∨ store.ends? e = some (b, a)

/-- A path in a store: it has one vertex more than it has edges, its vertices are there, and each edge is
there and joins the vertices before and after it. -/
structure Path.IsWalkIn (store : Store) (p : Path) : Prop where
  length_vertices : p.vertices.length = p.edges.length + 1
  vertices_subset : p.vertices ⊆ store.vertices
  joins : ∀ {k : Nat} {e : EdgeId}, p.edges[k]? = some e →
    ∃ a b, p.vertices[k]? = some a ∧ p.vertices[k + 1]? = some b ∧ store.Joins e a b

/-- A store in which every edge that can be crossed from a vertex joins it to the vertex that the edge
leads to. -/
def Store.IsConsistent (store : Store) : Prop :=
  ∀ (v : VertexId) (d : Direction), ∀ step ∈ store.neighbors v d,
    step.2 ∈ store.vertices ∧ store.Joins step.1 v step.2

namespace Graph

/-- In a graph that was built by operations an edge is listed at its ends only. -/
theorem Indexed.isConsistent {g : Graph} (h : g.Indexed) : g.store.IsConsistent := by
  intro v d step hstep
  refine ⟨h.neighbors_mem hstep, ?_⟩
  -- An entry of the index lists the edges that belong under its key.
  have listed {index : IdIndex VertexId EdgeId} {belongs : VertexId → Edge → Bool}
      (hindex : index.Lists Edge.id belongs g.edges) {e : Edge}
      (he : e ∈ (index.entry v).filterMap g.edge?) :
      belongs v e = true ∧ g.store.ends? e.id = some (e.src, e.dst) := by
    obtain ⟨i, hi, hfind⟩ := List.mem_filterMap.mp he
    rw [hindex v] at hi
    obtain ⟨x, hx, rfl⟩ := List.mem_map.mp hi
    obtain ⟨hmem, hbelongs⟩ := List.mem_filter.mp hx
    have hxe : x = e := Option.some.inj ((edge?_of_mem h.edges hmem).symm.trans hfind)
    subst hxe
    exact ⟨hbelongs, congrArg (Option.map fun edge : Edge => (edge.src, edge.dst)) hfind⟩
  simp only [store, Graph.neighbors, List.mem_append] at hstep
  rcases hstep with (hleaves | henters) | hmeets
  · split at hleaves
    · obtain ⟨e, he, rfl⟩ := List.mem_map.mp hleaves
      obtain ⟨hbelongs, hends⟩ := listed h.edges.lists.outgoing he
      have hsrc : e.src = v := by simpa [Edge.leaves] using (Bool.and_eq_true_iff.mp hbelongs).2
      exact .inl (hsrc ▸ hends)
    · cases hleaves
  · split at henters
    · obtain ⟨e, he, rfl⟩ := List.mem_map.mp henters
      obtain ⟨hbelongs, hends⟩ := listed h.edges.lists.incoming (List.mem_filter.mp he).1
      have hdst : e.dst = v := by simpa [Edge.enters] using (Bool.and_eq_true_iff.mp hbelongs).2
      exact .inr (hdst ▸ hends)
    · cases henters
  · split at hmeets
    · obtain ⟨e, he, hother⟩ := List.mem_filterMap.mp hmeets
      obtain ⟨w, hw, rfl⟩ := Option.map_eq_some_iff.mp hother
      obtain ⟨-, hends⟩ := listed h.edges.lists.undirected he
      unfold Edge.otherEnd? at hw
      split at hw
      · next hsrc =>
        cases hw
        exact .inl (hsrc ▸ hends)
      · split at hw
        · next hdst =>
          cases hw
          exact .inr (hdst ▸ hends)
        · cases hw
    · cases hmeets

end Graph

namespace Path

theorem isSome_renderSteps? (vs : List VertexId) (es : List EdgeId) (h : vs.length ≤ es.length) :
    (renderSteps? vs es).isSome = true := by
  induction vs generalizing es with
  | nil => rfl
  | cons v vs ih =>
    cases es with
    | nil => simp at h
    | cons e es => simpa [renderSteps?] using ih es (Nat.le_of_succ_le_succ h)

theorem isSome_render? {p : Path} (h : p.vertices.length = p.edges.length + 1) :
    p.render?.isSome = true := by
  obtain ⟨vertices, edges⟩ := p
  cases vertices with
  | nil => rfl
  | cons v vs =>
    have hlength : vs.length = edges.length := Nat.succ.inj h
    simpa [render?] using isSome_renderSteps? vs edges (Nat.le_of_eq hlength)

end Path

namespace Walk

variable {store : Store} {w u : Walk} {e : EdgeId} {v : VertexId}

@[simp] theorem vertices_extend (w : Walk) (e : EdgeId) (v : VertexId) :
    (w.extend e v).vertices = w.vertices ++ [v] := by
  simp [vertices, extend]

@[simp] theorem edges_extend (w : Walk) (e : EdgeId) (v : VertexId) :
    (w.extend e v).edges = w.edges ++ [e] := by
  simp [edges, extend]

@[simp] theorem length_edges (w : Walk) : w.edges.length = w.length := by simp [edges, length]

theorem getLast?_vertices (w : Walk) : w.vertices.getLast? = some w.current := w.end?_toPath

theorem isWalkIn_extend (h : w.toPath.IsWalkIn store) (hv : v ∈ store.vertices)
    (he : store.Joins e w.current v) : (w.extend e v).toPath.IsWalkIn store where
  length_vertices := by simp [toPath]
  vertices_subset := by
    simp only [toPath, vertices_extend, List.append_subset, List.cons_subset, List.nil_subset,
      and_true]
    exact ⟨h.vertices_subset, hv⟩
  joins {k e'} hk := by
    have hlength : w.vertices.length = w.edges.length + 1 := w.length_vertices
    simp only [toPath, edges_extend, vertices_extend] at hk ⊢
    rcases Nat.lt_or_ge k w.edges.length with hlt | hge
    · rw [List.getElem?_append_left hlt] at hk
      obtain ⟨a, b, ha, hb, hjoins⟩ := h.joins hk
      refine ⟨a, b, ?_, ?_, hjoins⟩
      · rw [List.getElem?_append_left (by omega)]
        exact ha
      · rw [List.getElem?_append_left (by omega)]
        exact hb
    · obtain ⟨hk', -⟩ := List.getElem?_eq_some_iff.mp hk
      obtain rfl : k = w.edges.length := by
        rw [List.length_append, List.length_singleton] at hk'
        omega
      obtain rfl : e = e' := by simpa using hk
      refine ⟨w.current, v, ?_, ?_, he⟩
      · rw [List.getElem?_append_left (by omega), ← w.getLast?_vertices, List.getLast?_eq_getElem?,
          hlength, Nat.add_sub_cancel]
      · rw [← hlength]
        simp

/-- A walk goes on over an edge that the store lists where it is. -/
inductive StepsTo (store : Store) (w : Walk) : Walk → Prop where
  | cross {d : Direction} {edge : EdgeId × VertexId} (h : edge ∈ store.neighbors w.current d) :
    StepsTo store w (w.extend edge.1 edge.2)

/-- A walk goes on for some steps. -/
def Reaches (store : Store) : Walk → Walk → Prop := Relation.ReflTransGen (StepsTo store)

theorem Reaches.isWalkIn (h : Reaches store w u) (hstore : store.IsConsistent)
    (hw : w.toPath.IsWalkIn store) : u.toPath.IsWalkIn store := by
  induction h with
  | refl => exact hw
  | tail _ hstep ih =>
    obtain ⟨hedge⟩ := hstep
    obtain ⟨hmem, hjoins⟩ := hstore _ _ _ hedge
    exact isWalkIn_extend ih hmem hjoins

theorem Reaches.length_le (h : Reaches store w u) : w.length ≤ u.length := by
  induction h with
  | refl => exact Nat.le_refl _
  | tail _ hstep ih =>
    obtain ⟨-⟩ := hstep
    rw [length_extend]
    exact Nat.le_succ_of_le ih

/-! ## Segments -/

@[simp] theorem since_length (w : Walk) : w.since w.length = ⟨w.current, []⟩ := by
  simp [since, length]

theorem since_extend {n : Nat} (hn : n ≤ w.length) (e : EdgeId) (v : VertexId) :
    (w.extend e v).since n = (w.since n).extend e v := by
  simp only [since, extend, List.take_append_of_le_length hn, List.drop_append_of_le_length hn]

theorem edges_since (w : Walk) (n : Nat) : (w.since n).edges = w.edges.drop n := by
  simp [since, edges]

theorem vertices_since {n : Nat} (hn : n ≤ w.length) : (w.since n).vertices = w.vertices.drop n := by
  obtain ⟨start, steps⟩ := w
  cases n with
  | zero => rfl
  | succ n =>
    have hlt : n < steps.length := hn
    have hdrop : (steps.map (·.2)).drop n = steps[n].2 :: (steps.map (·.2)).drop (n + 1) := by
      rw [List.drop_eq_getElem_cons (by simpa using hlt), List.getElem_map]
    simp [since, vertices, current, List.getLast?_take, hlt, hdrop]

end Walk

/-- A contiguous part of a path: a block of its vertices with the edges between them. -/
def Path.IsSegment (q p : Path) : Prop :=
  q.vertices.length = q.edges.length + 1 ∧
    ∃ n, q.vertices <+: p.vertices.drop n ∧ q.edges <+: p.edges.drop n

namespace Walk

variable {store : Store} {w u : Walk}

/-- What was walked after some steps is a segment of the whole walk. -/
theorem isSegment_since {n : Nat} (hn : n ≤ w.length) : (w.since n).toPath.IsSegment w.toPath := by
  refine ⟨length_vertices _, n, ?_, ?_⟩
  · simp only [toPath, vertices_since hn, List.prefix_rfl]
  · simp only [toPath, edges_since, List.prefix_rfl]

theorem Reaches.isSegment {q : Path} (h : Reaches store w u) (hq : q.IsSegment w.toPath) :
    q.IsSegment u.toPath := by
  induction h with
  | refl => exact hq
  | tail _ hstep ih =>
    obtain ⟨-⟩ := hstep
    obtain ⟨hlength, n, hvertices, hedges⟩ := ih
    refine ⟨hlength, n, hvertices.trans ?_, hedges.trans ?_⟩
    · simp only [toPath, vertices_extend, List.drop_append]
      exact List.prefix_append _ _
    · simp only [toPath, edges_extend, List.drop_append]
      exact List.prefix_append _ _

end Walk

namespace Walk

/-- Every walk is a start vertex with some steps after it, the last one last. -/
theorem extendRec {motive : Walk → Prop} (start : ∀ v, motive ⟨v, []⟩)
    (extend : ∀ (w : Walk) (e : EdgeId) (v : VertexId), motive w → motive (w.extend e v)) (w : Walk) :
    motive w := by
  obtain ⟨v, steps⟩ := w
  induction steps using List.reverseRecOn with
  | nil => exact start v
  | append_singleton steps step ih => exact extend ⟨v, steps⟩ step.1 step.2 ih

/-- The walk as it was after its first `n` steps. -/
def upTo (w : Walk) (n : Nat) : Walk := { w with steps := w.steps.take n }

@[simp] theorem upTo_length (w : Walk) : w.upTo w.length = w := by simp [upTo, length]

theorem upTo_extend {w : Walk} {n : Nat} (hn : n ≤ w.length) (e : EdgeId) (v : VertexId) :
    (w.extend e v).upTo n = w.upTo n := by
  simp only [upTo, extend, List.take_append_of_le_length hn]

theorem upTo_upTo (w : Walk) (n i : Nat) : (w.upTo n).upTo i = w.upTo (min i n) := by
  simp only [upTo, List.take_take]

end Walk

/-! ## Modes -/

/-- What a mode asks of a path. In a simple path only the first vertex and the last one may be the
same. -/
def PathMode.Holds (mode : PathMode) (p : Path) : Prop :=
  match mode with
  | .walk => True
  | .trail => p.edges.Nodup
  | .simple => p.vertices.dropLast.Nodup ∧ p.vertices.tail.Nodup
  | .acyclic => p.vertices.Nodup

namespace PathMode

theorem holds_vertex (mode : PathMode) (v : VertexId) : mode.Holds ⟨[v], []⟩ := by
  cases mode <;> simp [Holds]

/-- A simple walk that does not end where it started has no vertex twice. -/
theorem nodup_of_simple {w : Walk} (h : PathMode.simple.Holds w.toPath)
    (hclosed : w.toPath.isClosed = false) : w.vertices.Nodup := by
  obtain ⟨start, steps⟩ := w
  obtain ⟨hinit, htail⟩ := h
  cases steps using List.reverseRecOn with
  | nil => exact List.nodup_singleton start
  | append_singleton steps step =>
    simp only [Walk.toPath, Walk.vertices, Walk.edges, List.map_append, List.map_cons, List.map_nil,
      List.tail_cons, Path.isClosed, Path.start?, Path.end?] at hinit htail hclosed ⊢
    rw [← List.cons_append, List.dropLast_concat, List.nodup_cons] at hinit
    have hlast : start ≠ step.2 := fun heq => by
      rw [← List.cons_append, List.getLast?_concat] at hclosed
      simp [heq] at hclosed
    refine List.nodup_cons.mpr ⟨fun hmem => ?_, htail⟩
    rcases List.mem_append.mp hmem with hmem | hmem
    · exact hinit.1 hmem
    · exact hlast (List.mem_singleton.mp hmem)

/-- **A step that a mode allows keeps what the mode asks.** -/
theorem holds_extend {mode : PathMode} {w : Walk} {e : EdgeId} {v : VertexId}
    (h : mode.Holds w.toPath) (hadmits : mode.admits w.toPath e v = true) :
    mode.Holds (w.extend e v).toPath := by
  cases mode with
  | walk => trivial
  | trail =>
    have he : e ∉ w.edges := by simpa [admits, Walk.toPath] using hadmits
    simp only [Holds, Walk.toPath, Walk.edges_extend]
    exact List.nodup_append_comm.mp (List.nodup_cons.mpr ⟨he, h⟩)
  | simple =>
    obtain ⟨hclosed, hv⟩ := Bool.and_eq_true_iff.mp hadmits
    have hnodup := nodup_of_simple h (by simpa using hclosed)
    have hnew : v ∉ w.vertices.tail := by simpa [Walk.toPath] using hv
    simp only [Holds, Walk.toPath, Walk.vertices_extend, List.dropLast_concat]
    refine ⟨hnodup, ?_⟩
    rw [List.tail_append_of_ne_nil (show w.vertices ≠ [] from List.cons_ne_nil _ _)]
    exact List.nodup_append_comm.mp (List.nodup_cons.mpr ⟨hnew, hnodup.tail⟩)
  | acyclic =>
    have hv : v ∉ w.vertices := by simpa [admits, Walk.toPath] using hadmits
    simp only [Holds, Walk.toPath, Walk.vertices_extend]
    exact List.nodup_append_comm.mp (List.nodup_cons.mpr ⟨hv, h⟩)

/-- **What a mode asks of a walk it asks step by step.** -/
theorem holds_extend_iff {mode : PathMode} {w : Walk} {e : EdgeId} {v : VertexId} :
    mode.Holds (w.extend e v).toPath ↔ mode.Holds w.toPath ∧ mode.admits w.toPath e v = true := by
  refine ⟨fun h => ?_, fun h => holds_extend h.1 h.2⟩
  cases mode with
  | walk => exact ⟨trivial, rfl⟩
  | trail =>
    simp only [Holds, Walk.toPath, Walk.edges_extend] at h ⊢
    obtain ⟨he, hrest⟩ := List.nodup_cons.mp (List.nodup_append_comm.mp h)
    exact ⟨hrest, by simpa [admits] using he⟩
  | simple =>
    simp only [Holds, Walk.toPath, Walk.vertices_extend, List.dropLast_concat] at h ⊢
    obtain ⟨hall, htail⟩ := h
    rw [List.tail_append_of_ne_nil (show w.vertices ≠ [] from List.cons_ne_nil _ _)] at htail
    obtain ⟨hv, hrest⟩ := List.nodup_cons.mp (List.nodup_append_comm.mp htail)
    refine ⟨⟨hall.sublist (List.dropLast_sublist _), hrest⟩, ?_⟩
    -- A closed walk has its start twice.
    have hopen : w.toPath.isClosed = false := by
      induction w using Walk.extendRec with
      | start v => rfl
      | extend w e v _ =>
        have hstart : w.start ≠ v := fun heq => by
          rw [Walk.vertices_extend, ← heq] at hall
          exact (List.nodup_append.mp hall).2.2 w.start List.mem_cons_self w.start
            (List.mem_singleton_self _) rfl
        have hend : (w.extend e v).toPath.end? = some v := by
          simp [Path.end?, Walk.toPath]
        have hfirst : (w.extend e v).toPath.start? = some w.start := rfl
        simp [Path.isClosed, hend, hfirst, hstart]
    have hnew : (!w.toPath.isClosed && !(w.toPath.vertices.drop 1).contains v) = true := by
      rw [hopen]
      simpa [Walk.toPath] using hv
    exact hnew
  | acyclic =>
    simp only [Holds, Walk.toPath, Walk.vertices_extend] at h ⊢
    obtain ⟨hv, hrest⟩ := List.nodup_cons.mp (List.nodup_append_comm.mp h)
    exact ⟨hrest, by simpa [admits] using hv⟩

/-- Each step of a walk is one that the mode allows after the steps before it. -/
def AdmitsSteps (mode : PathMode) (w : Walk) : Prop :=
  ∀ i e v, w.steps[i]? = some (e, v) → mode.admits (w.upTo i).toPath e v = true

variable {mode : PathMode} {w : Walk}

theorem admitsSteps_extend_iff {e : EdgeId} {v : VertexId} :
    mode.AdmitsSteps (w.extend e v) ↔ mode.AdmitsSteps w ∧ mode.admits w.toPath e v = true := by
  have hbefore {i : Nat} (hi : i < w.length) : (w.extend e v).steps[i]? = w.steps[i]? :=
    List.getElem?_append_left hi
  have hlast : (w.extend e v).steps[w.length]? = some (e, v) := List.getElem?_concat_length
  constructor
  · intro h
    refine ⟨fun i e' v' hstep => ?_, ?_⟩
    · obtain ⟨hi, -⟩ := List.getElem?_eq_some_iff.mp hstep
      rw [← Walk.upTo_extend (Nat.le_of_lt hi) e v]
      exact h i e' v' ((hbefore hi).trans hstep)
    · have hadmits := h w.length e v hlast
      rwa [Walk.upTo_extend (Nat.le_refl _), Walk.upTo_length] at hadmits
  · rintro ⟨h, hadmits⟩ i e' v' hstep
    obtain ⟨hi, -⟩ := List.getElem?_eq_some_iff.mp hstep
    have hi : i ≤ w.length := by simpa [Walk.extend, Walk.length, Nat.lt_succ_iff] using hi
    rw [Walk.upTo_extend hi]
    rcases Nat.lt_or_eq_of_le hi with hi | rfl
    · exact h i e' v' ((hbefore hi).symm.trans hstep)
    · obtain ⟨rfl, rfl⟩ := Prod.mk.inj (Option.some.inj (hlast.symm.trans hstep))
      rwa [Walk.upTo_length]

theorem AdmitsSteps.upTo (h : mode.AdmitsSteps w) (n : Nat) : mode.AdmitsSteps (w.upTo n) := by
  intro i e v hstep
  rw [Walk.upTo, List.getElem?_take] at hstep
  split at hstep
  · next hi =>
    rw [Walk.upTo_upTo, Nat.min_eq_left (Nat.le_of_lt hi)]
    exact h i e v hstep
  · cases hstep

theorem admitsSteps_iff_holds : mode.AdmitsSteps w ↔ mode.Holds w.toPath := by
  induction w using Walk.extendRec with
  | start v => exact iff_of_true nofun (holds_vertex mode v)
  | extend w e v ih => rw [admitsSteps_extend_iff, ih, holds_extend_iff]

/-- **A mode that is checked at every step holds of the whole walk**, and the other way round, so that
it holds of what was walked up to any step. -/
theorem holds_stepwise (mode : PathMode) (w : Walk) :
    (mode.AdmitsSteps w ↔ mode.Holds w.toPath) ∧
      (mode.Holds w.toPath → ∀ n, mode.Holds (w.upTo n).toPath) :=
  ⟨admitsSteps_iff_holds, fun h n =>
    admitsSteps_iff_holds.mp ((admitsSteps_iff_holds.mpr h).upTo n)⟩

end PathMode

end GraphPatterns
