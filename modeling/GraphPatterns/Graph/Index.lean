/-
The indexes of a graph: the vertices and the edges under each label, and the edges at each vertex.
Every entry lists identifiers in the order in which they were added.
-/
import GraphPatterns.Assoc
import GraphPatterns.Graph.Element

namespace GraphPatterns

/-- Identifiers under keys, in the order in which they were added. -/
abbrev IdIndex (κ ι : Type) := Assoc κ (List ι)

namespace IdIndex

variable {κ ι : Type} [DecidableEq κ]

/-- The identifiers under a key. -/
def entry (index : IdIndex κ ι) (key : κ) : List ι := (index.get? key).getD []

/-- Adds an identifier under a key. -/
def push (index : IdIndex κ ι) (key : κ) (id : ι) : IdIndex κ ι :=
  index.insert key (index.entry key ++ [id])

/-- Adds an identifier under a key, unless it is there. -/
def pushNew [DecidableEq ι] (index : IdIndex κ ι) (key : κ) (id : ι) : IdIndex κ ι :=
  if id ∈ index.entry key then index else index.push key id

/-- Removes an identifier from under a key. -/
def drop [DecidableEq ι] (index : IdIndex κ ι) (key : κ) (id : ι) : IdIndex κ ι :=
  if index.has key then index.insert key ((index.entry key).filter (· ≠ id)) else index

theorem entry_push (index : IdIndex κ ι) (key other : κ) (id : ι) :
    (index.push key id).entry other =
      if key = other then index.entry other ++ [id] else index.entry other := by
  unfold push entry
  rw [Assoc.get?_insert]
  by_cases h : key = other
  · subst h; simp
  · simp [h]

theorem entry_drop [DecidableEq ι] (index : IdIndex κ ι) (key other : κ) (id : ι) :
    (index.drop key id).entry other =
      if key = other then (index.entry other).filter (· ≠ id) else index.entry other := by
  unfold drop
  by_cases hk : index.has key = true
  · rw [if_pos hk]
    unfold entry
    rw [Assoc.get?_insert]
    by_cases h : key = other
    · subst h; simp
    · simp [h]
  · rw [if_neg hk]
    by_cases h : key = other
    · subst h
      have hn : index.get? key = none := by simpa [Assoc.has] using hk
      simp [entry, hn]
    · simp [h]

end IdIndex

/-- The vertices under each label. -/
structure VertexIndex where
  byLabel : IdIndex String VertexId := []

namespace VertexIndex

def addLabel (index : VertexIndex) (label : String) (v : VertexId) : VertexIndex :=
  ⟨index.byLabel.pushNew label v⟩

/-- The vertices under a label. -/
def withLabel (index : VertexIndex) (label : String) : List VertexId := index.byLabel.entry label

/-- Whether a vertex carries the label. -/
def hasLabel (index : VertexIndex) (label : String) : Bool := !(index.withLabel label).isEmpty

/-- Adds a vertex under all its labels. -/
def add (index : VertexIndex) (v : VertexId) (labels : Labels) : VertexIndex :=
  labels.foldl (fun index label => index.addLabel label v) index

/-- Removes a vertex from under the given labels. -/
def remove (index : VertexIndex) (v : VertexId) (labels : Labels) : VertexIndex :=
  ⟨labels.foldl (fun m label => m.drop label v) index.byLabel⟩

end VertexIndex

/-- The edges at each vertex and under each label. A self-loop without direction is listed once at
its vertex, a directed one once among the outgoing and once among the incoming edges. -/
structure EdgeIndex where
  outgoing : IdIndex VertexId EdgeId := []
  incoming : IdIndex VertexId EdgeId := []
  undirected : IdIndex VertexId EdgeId := []
  byLabel : IdIndex String EdgeId := []

namespace EdgeIndex

def addDirected (index : EdgeIndex) (e : EdgeId) (src dst : VertexId) : EdgeIndex :=
  { index with
    outgoing := index.outgoing.push src e
    incoming := index.incoming.push dst e }

def addUndirected (index : EdgeIndex) (e : EdgeId) (a b : VertexId) : EdgeIndex :=
  let once := index.undirected.push a e
  { index with undirected := if a = b then once else once.push b e }

def addLabel (index : EdgeIndex) (label : String) (e : EdgeId) : EdgeIndex :=
  { index with byLabel := index.byLabel.pushNew label e }

/-- Adds an edge at its ends and under its labels. -/
def add (index : EdgeIndex) (e : Edge) : EdgeIndex :=
  let placed :=
    if e.directed then index.addDirected e.id e.src e.dst
    else index.addUndirected e.id e.src e.dst
  e.labels.foldl (fun index label => index.addLabel label e.id) placed

/-- Whether an edge carries the label. -/
def hasLabel (index : EdgeIndex) (label : String) : Bool := !(index.byLabel.entry label).isEmpty

/-- The number of directed edges that leave a vertex. -/
def outDegree (index : EdgeIndex) (v : VertexId) : Nat := (index.outgoing.entry v).length

/-- The number of directed edges that enter a vertex. -/
def inDegree (index : EdgeIndex) (v : VertexId) : Nat := (index.incoming.entry v).length

/-- Removes an edge from its ends and from under the given labels. -/
def remove (index : EdgeIndex) (e : EdgeId) (src dst : VertexId) (directed : Bool)
    (labels : Labels) : EdgeIndex :=
  let detached :=
    if directed then
      { index with
        outgoing := index.outgoing.drop src e
        incoming := index.incoming.drop dst e }
    else { index with undirected := (index.undirected.drop src e).drop dst e }
  { detached with byLabel := labels.foldl (fun m label => m.drop label e) detached.byLabel }

end EdgeIndex

end GraphPatterns
