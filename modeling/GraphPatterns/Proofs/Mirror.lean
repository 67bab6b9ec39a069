/-
Walks from the other end. An edge that may be crossed from a vertex may be crossed back from where it
leads to, in the mirrored direction (`Graph.mem_neighbors_mirror`). A walk that is turned round goes
through the same vertices and edges, and a mode asks the same of it (`PathMode.holds_reverse`).
-/
import GraphPatterns.Proofs.GraphScan
import GraphPatterns.Proofs.Walks

namespace GraphPatterns

/-! ## Directions -/

/-- The direction in which an edge is crossed from the vertex at its right. -/
def Direction.mirror : Direction → Direction
  | .right => .left
  | .left => .right
  | .leftOrUndirected => .undirectedOrRight
  | .undirectedOrRight => .leftOrUndirected
  | d => d

namespace Direction

@[simp] theorem mirror_mirror (d : Direction) : d.mirror.mirror = d := by cases d <;> rfl

@[simp] theorem allowsRight_mirror (d : Direction) : d.mirror.allowsRight = d.allowsLeft := by
  cases d <;> rfl

@[simp] theorem allowsLeft_mirror (d : Direction) : d.mirror.allowsLeft = d.allowsRight := by
  cases d <;> rfl

@[simp] theorem allowsUndirected_mirror (d : Direction) :
    d.mirror.allowsUndirected = d.allowsUndirected := by cases d <;> rfl

end Direction

/-! ## Neighbours -/

/-- An edge may be crossed from a vertex to another one. -/
def Edge.Crosses (e : Edge) (d : Direction) (v w : VertexId) : Prop :=
  e.directed = true ∧ (d.allowsRight = true ∧ e.src = v ∧ e.dst = w ∨
      d.allowsLeft = true ∧ e.src = w ∧ e.dst = v) ∨
    e.directed = false ∧ d.allowsUndirected = true ∧
      (e.src = v ∧ e.dst = w ∨ e.src = w ∧ e.dst = v)

theorem Edge.crosses_mirror {e : Edge} {d : Direction} {v w : VertexId} :
    e.Crosses d.mirror v w ↔ e.Crosses d w v := by
  simp only [Crosses, Direction.allowsRight_mirror, Direction.allowsLeft_mirror,
    Direction.allowsUndirected_mirror]
  constructor <;>
  · rintro (⟨hd, h⟩ | ⟨hd, hu, h⟩)
    · exact .inl ⟨hd, h.symm⟩
    · exact .inr ⟨hd, hu, h.symm⟩

/-- A scan finds the edges that may be crossed, each with the vertex it leads to. -/
theorem mem_scanNeighbors {edges : List Edge} {v : VertexId} {d : Direction}
    {step : EdgeId × VertexId} :
    step ∈ scanNeighbors edges v d ↔ ∃ e ∈ edges, e.id = step.1 ∧ e.Crosses d v step.2 := by
  obtain ⟨i, w⟩ := step
  have guarded {b : Bool} {xs : List (EdgeId × VertexId)} :
      (i, w) ∈ (if b then xs else []) ↔ b = true ∧ (i, w) ∈ xs := by cases b <;> simp
  have found {p : Edge → Bool} {other : Edge → VertexId} :
      (i, w) ∈ (edges.filter p).map (fun e => (e.id, other e)) ↔
        ∃ e ∈ edges, e.id = i ∧ p e = true ∧ other e = w := by
    simp only [List.mem_map, List.mem_filter, Prod.mk.injEq]
    exact ⟨fun ⟨e, ⟨he, hp⟩, hid, hw⟩ => ⟨e, he, hid, hp, hw⟩,
      fun ⟨e, he, hid, hp, hw⟩ => ⟨e, ⟨he, hp⟩, hid, hw⟩⟩
  simp only [scanNeighbors, List.mem_append, guarded, found]
  constructor
  · rintro ((⟨hd, e, he, hid, hp, hw⟩ | ⟨hd, e, he, hid, hp, hw⟩) | ⟨hd, e, he, hid, hp, hw⟩)
    · obtain ⟨hdir, hsrc⟩ : e.directed = true ∧ e.src = v := by simpa [Edge.leaves] using hp
      exact ⟨e, he, hid, .inl ⟨hdir, .inl ⟨hd, hsrc, hw⟩⟩⟩
    · obtain ⟨hdir, hdst⟩ : e.directed = true ∧ e.dst = v := by
        simpa [Edge.enters] using (Bool.and_eq_true_iff.mp hp).1
      exact ⟨e, he, hid, .inl ⟨hdir, .inr ⟨hd, hw, hdst⟩⟩⟩
    · obtain ⟨hdir, hends⟩ : e.directed = false ∧ (e.src = v ∨ e.dst = v) := by
        simpa [Edge.meets] using hp
      refine ⟨e, he, hid, .inr ⟨hdir, hd, ?_⟩⟩
      split at hw
      · next hsrc => exact .inl ⟨hsrc, hw⟩
      · next hsrc => exact .inr ⟨hw, hends.resolve_left hsrc⟩
  · rintro ⟨e, he, hid, ⟨hdir, ⟨hd, hsrc, hdst⟩ | ⟨hd, hsrc, hdst⟩⟩ | ⟨hdir, hd, hends⟩⟩
    · exact .inl (.inl ⟨hd, e, he, hid, by simp [Edge.leaves, hdir, hsrc], hdst⟩)
    · -- A self-loop that leaves the vertex is listed there.
      by_cases hloop : d.allowsRight = true ∧ e.src = e.dst
      · refine .inl (.inl ⟨hloop.1, e, he, hid, ?_, ?_⟩)
        · simp [Edge.leaves, hdir, hloop.2, hdst]
        · rw [← hloop.2, hsrc]
      · refine .inl (.inr ⟨hd, e, he, hid, ?_, hsrc⟩)
        have hlisted : (d.allowsRight && e.isSelfLoop) = false :=
          Bool.eq_false_iff.mpr fun h => hloop (by simpa [Edge.isSelfLoop] using h)
        simp [Edge.enters, hdir, hdst, hlisted]
    · refine .inr ⟨hd, e, he, hid, ?_, ?_⟩
      · rcases hends with ⟨hsrc, hdst⟩ | ⟨hsrc, hdst⟩
        · simp [Edge.meets, hdir, hsrc]
        · simp [Edge.meets, hdir, hdst]
      · rcases hends with ⟨hsrc, hdst⟩ | ⟨hsrc, hdst⟩
        · rw [if_pos hsrc, hdst]
        · split
          · next hv => rw [hdst, ← hv, hsrc]
          · exact hsrc

namespace Graph

variable {g : Graph}

/-- **An edge may be crossed back**, in the mirrored direction. -/
theorem mem_neighbors_mirror (h : g.Indexed) {v w : VertexId} {d : Direction} {e : EdgeId} :
    (e, v) ∈ g.store.neighbors w d.mirror ↔ (e, w) ∈ g.store.neighbors v d := by
  rw [neighbors_eq_scan h.edges, neighbors_eq_scan h.edges, mem_scanNeighbors, mem_scanNeighbors]
  simp only [Edge.crosses_mirror]

theorem nodup_neighbors (h : g.Indexed) (v : VertexId) (d : Direction) :
    (g.store.neighbors v d).Nodup := by
  refine List.Nodup.of_map (·.1) (List.nodup_iff_count_le_one.mpr fun i => ?_)
  by_cases hi : i ∈ (g.store.neighbors v d).map (·.1)
  · obtain ⟨step, hstep, rfl⟩ := List.mem_map.mp hi
    rw [neighbors_eq_scan h.edges] at hstep
    obtain ⟨e, he, hid, -⟩ := mem_scanNeighbors.mp hstep
    rw [← hid, count_neighbors h.edges v d he]
    split
    · exact Nat.le_refl 1
    · exact Nat.zero_le 1
  · rw [List.count_eq_zero_of_not_mem hi]
    exact Nat.zero_le 1

end Graph

/-! ## Walks -/

/-- The path from its end to its start. -/
def Path.reverse (p : Path) : Path := ⟨p.vertices.reverse, p.edges.reverse⟩

@[simp] theorem Path.reverse_reverse (p : Path) : p.reverse.reverse = p := by simp [reverse]

namespace Walk

variable {w u : Walk}

/-- The walk with one step before it. -/
def prepend (v : VertexId) (e : EdgeId) (w : Walk) : Walk := ⟨v, (e, w.start) :: w.steps⟩

/-- The walk from its end to its start. -/
def reverse (w : Walk) : Walk := w.steps.foldl (fun r step => r.prepend step.2 step.1) ⟨w.start, []⟩

@[simp] theorem reverse_extend (w : Walk) (e : EdgeId) (v : VertexId) :
    (w.extend e v).reverse = w.reverse.prepend v e := by
  simp [reverse, extend]

@[simp] theorem length_prepend (v : VertexId) (e : EdgeId) (w : Walk) :
    (w.prepend v e).length = w.length + 1 := rfl

@[simp] theorem current_prepend (v : VertexId) (e : EdgeId) (w : Walk) :
    (w.prepend v e).current = w.current := by
  obtain ⟨start, steps⟩ := w
  cases steps with
  | nil => rfl
  | cons step steps => simp [prepend, current, List.getLast?_cons]

theorem extend_prepend (w : Walk) (v v' : VertexId) (e e' : EdgeId) :
    (w.extend e' v').prepend v e = (w.prepend v e).extend e' v' := rfl

@[simp] theorem start_reverse (w : Walk) : w.reverse.start = w.current := by
  induction w using extendRec with
  | start v => rfl
  | extend w e v _ => rw [reverse_extend, current_extend, prepend]

@[simp] theorem length_reverse (w : Walk) : w.reverse.length = w.length := by
  induction w using extendRec with
  | start v => rfl
  | extend w e v ih => rw [reverse_extend, length_prepend, length_extend, ih]

/-- The path of a walk that is turned round is the path, turned round. -/
@[simp] theorem toPath_reverse (w : Walk) : w.reverse.toPath = w.toPath.reverse := by
  induction w using extendRec with
  | start v => rfl
  | extend w e v ih =>
    have hvertices : w.reverse.vertices = w.vertices.reverse := congrArg Path.vertices ih
    have hedges : w.reverse.edges = w.edges.reverse := congrArg Path.edges ih
    have hprepend : (w.reverse.prepend v e).toPath =
        ⟨v :: w.reverse.vertices, e :: w.reverse.edges⟩ := rfl
    rw [reverse_extend, hprepend, hvertices, hedges]
    simp [Path.reverse, toPath]

/-- A walk is known by its path. -/
theorem toPath_injective (h : w.toPath = u.toPath) : w = u := by
  obtain ⟨hvertices, hedges⟩ := Path.mk.inj h
  obtain ⟨hstart, htail⟩ := List.cons.inj hvertices
  obtain ⟨_, steps⟩ := w
  obtain ⟨_, steps'⟩ := u
  have hsteps : steps = steps' :=
    (List.zip_of_prod hedges htail).trans (List.zip_of_prod rfl rfl).symm
  simp only at hstart
  rw [hstart, hsteps]

@[simp] theorem reverse_reverse (w : Walk) : w.reverse.reverse = w :=
  toPath_injective (by simp)

theorem extend_inj {e e' : EdgeId} {v v' : VertexId} :
    w.extend e v = u.extend e' v' ↔ w = u ∧ e = e' ∧ v = v' := by
  obtain ⟨_, steps⟩ := w
  obtain ⟨_, steps'⟩ := u
  simp only [extend, mk.injEq]
  constructor
  · rintro ⟨hstart, hsteps⟩
    obtain ⟨hinit, hlast⟩ := List.append_inj' hsteps rfl
    cases hlast
    exact ⟨⟨hstart, hinit⟩, rfl, rfl⟩
  · rintro ⟨⟨rfl, rfl⟩, rfl, rfl⟩
    exact ⟨rfl, rfl⟩

end Walk

/-! ## Modes -/

namespace PathMode

/-- A mode asks the same of a path from either end. -/
theorem holds_reverse {mode : PathMode} {p : Path} : mode.Holds p.reverse ↔ mode.Holds p := by
  cases mode with
  | walk => exact Iff.rfl
  | trail => exact List.nodup_reverse
  | simple =>
    simp only [Holds, Path.reverse, List.dropLast_reverse, List.tail_reverse, List.nodup_reverse]
    exact and_comm
  | acyclic => exact List.nodup_reverse

end PathMode

end GraphPatterns
