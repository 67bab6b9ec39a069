/-
Routes. A term of node patterns and edge patterns leads along routes: for each number of repetitions of
its quantified edges, a list of nodes to test and edges to cross. A walk along a route is traced if each
node and edge on it fits and no variable outside quantifiers stands for two elements (`Route.Traces`).
Nothing is said about the order in which a search finds out: the ways along a route are the walks traced
along it, each once, that the mode and the limit allow (`Route.walks_perm`, with `Route.nodup_walks`).
-/
import GraphPatterns.Proofs.Mirror
import GraphPatterns.Proofs.Unrolling

namespace GraphPatterns

/-- One part of a route: a node to test, or an edge to cross, perhaps under a quantifier. -/
inductive Leg where
  | node (f : NodePattern)
  | edge (pattern : EdgePattern) (repeated : Bool)

abbrev Route := List Leg

/-! ## Traces -/

/-- Whether an element has the labels and the properties that are asked for. -/
def Filler.fits (f : Filler) (store : Store) (x : ElementId) : Bool :=
  f.label.all (·.admits store x) && admitsProperties f.properties store x

/-- What a filler outside quantifiers binds to an element. -/
def Filler.binds (f : Filler) (repeated : Bool) (x : ElementId) : List (String × ElementId) :=
  if repeated then [] else f.name.toList.map (·, x)

/-- A leg leads from a walk to a walk, and binds variables. -/
inductive Leg.Leads (store : Store) : Leg → Walk → Walk → List (String × ElementId) → Prop where
  | node {f : NodePattern} {w : Walk} (h : f.fits store (.vertex w.current) = true) :
    Leads store (.node f) w w (f.binds false (.vertex w.current))
  | edge {pattern : EdgePattern} {repeated : Bool} {w : Walk} {e : EdgeId} {v : VertexId}
    (hedge : (e, v) ∈ store.neighbors w.current pattern.direction)
    (h : pattern.filler.fits store (.edge e) = true) :
    Leads store (.edge pattern repeated) w (w.extend e v) (pattern.filler.binds repeated (.edge e))

/-- A walk goes along a route, and binds variables on its way. -/
inductive Route.Traces (store : Store) : Route → Walk → List (String × ElementId) → Prop where
  | start {v : VertexId} (hv : v ∈ store.vertices) : Traces store [] ⟨v, []⟩ []
  | leg {r : Route} {l : Leg} {w u : Walk} {xs ys : List (String × ElementId)}
    (hr : Traces store r w xs) (hl : l.Leads store w u ys) : Traces store (r ++ [l]) u (xs ++ ys)

/-- No variable stands for two elements. -/
def IsConsistent (xs : List (String × ElementId)) : Prop :=
  ∀ a ∈ xs, ∀ b ∈ xs, a.1 = b.1 → a.2 = b.2

/-! ## Ways along a route -/

namespace Leg

def filler : Leg → Filler
  | node f => f
  | edge pattern _ => pattern.filler

def repeated : Leg → Bool
  | node _ => false
  | edge _ repeated => repeated

def element : Leg → Element
  | node f => .node f
  | edge pattern _ => .edge pattern

/-- The ways of a leg. What a grouped variable took in a repetition is forgotten. -/
def ways (c : Surroundings) (l : Leg) (s : Stage) : List Stage :=
  (l.element.ways { c with repeated := l.repeated } s).map fun u => { u with taken := s.taken }

/-- A leg without a WHERE clause, of which the variable is one of the groups if and only if the leg is
under a quantifier. -/
structure Suits (groups : List String) (l : Leg) : Prop where
  condition : l.filler.condition = none
  name : ∀ name, l.filler.name = some name → (name ∈ groups ↔ l.repeated = true)

end Leg

def Route.ways (c : Surroundings) : Route → Stage → List Stage
  | [], s => [s]
  | l :: r, s => (l.ways c s).flatMap (ways c r)

theorem Route.ways_append (c : Surroundings) (r r' : Route) (s : Stage) :
    ways c (r ++ r') s = (ways c r s).flatMap (ways c r') := by
  induction r generalizing s with
  | nil => rw [List.nil_append, ways, List.flatMap_singleton]
  | cons l r ih =>
    rw [List.cons_append, ways, ways, List.flatMap_assoc]
    exact List.flatMap_congr fun u _ => ih u

theorem Route.ways_singleton (c : Surroundings) (l : Leg) (s : Stage) : ways c [l] s = l.ways c s :=
  List.flatMap_singleton' _

/-- A stage has bound the given variables, whatever its groups are. -/
structure Stage.Binds (groups : List String) (limit : Nat) (s : Stage)
    (xs : List (String × ElementId)) : Prop where
  bindings : ∀ name, name ∉ groups → s.bindings.get? name = (Assoc.get? xs name).map .ofElement
  taken : s.taken = []
  room : s.walk.length + s.room = limit

section Legs

variable {env : Env} {groups : List String} {limit : Nat} {s : Stage} {xs : List (String × ElementId)}

theorem isConsistent_append_singleton {name : String} {x : ElementId} (h : IsConsistent xs) :
    IsConsistent (xs ++ [(name, x)]) ↔ ∀ y, Assoc.get? xs name = some y → y = x := by
  constructor
  · intro hall y hy
    exact hall (name, y) (List.mem_append_left _ (Assoc.mem_of_get? hy)) (name, x) (by simp) rfl
  · intro hsame
    have key : ∀ a ∈ xs, a.1 = name → a.2 = x := by
      rintro ⟨_, y⟩ ha rfl
      cases hget : Assoc.get? xs _ with
      | none => exact absurd (List.mem_map_of_mem ha) (Assoc.get?_eq_none_iff.mp hget)
      | some z => exact (h _ ha _ (Assoc.mem_of_get? hget) rfl).trans (hsame z hget)
    intro a ha b hb hab
    rcases List.mem_append.mp ha with ha | ha <;> rcases List.mem_append.mp hb with hb | hb
    · exact h a ha b hb hab
    · obtain rfl := List.mem_singleton.mp hb
      exact key a ha hab
    · obtain rfl := List.mem_singleton.mp ha
      exact (key b hb hab.symm).symm
    · rw [List.mem_singleton.mp ha, List.mem_singleton.mp hb]

theorem IsConsistent.of_append {ys : List (String × ElementId)} (h : IsConsistent (xs ++ ys)) :
    IsConsistent xs := fun a ha b hb =>
  h a (List.mem_append_left _ ha) b (List.mem_append_left _ hb)

/-- **An element is admitted if it fits and its variable stands for no other.** -/
theorem Stage.Binds.admits (h : s.Binds groups limit xs) (hxs : IsConsistent xs) {c : Surroundings}
    (hseed : c.env.seed = []) {l : Leg} (hl : l.Suits groups) (x : ElementId) :
    Surroundings.admits { c with repeated := l.repeated } s l.filler x = true ↔
      l.filler.fits c.env.store x = true ∧ IsConsistent (xs ++ l.filler.binds l.repeated x) := by
  have htaken : s.takenBy? l.filler.name = none := by
    rw [Stage.takenBy?, h.taken]
    cases l.filler.name <;> rfl
  have hagrees : l.filler.agrees c.env s.bindings l.repeated none x = true ↔
      IsConsistent (xs ++ l.filler.binds l.repeated x) := by
    cases hrepeated : l.repeated with
    | true => simp [Filler.agrees, Filler.binds, hxs]
    | false =>
      cases hown : l.filler.name with
      | none => simp [Filler.agrees, Filler.binds, hown, hxs]
      | some name =>
        have hget := h.bindings name fun hmem => by simpa [hrepeated] using (hl.name name hown).mp hmem
        rw [show l.filler.binds false x = [(name, x)] by simp [Filler.binds, hown],
          isConsistent_append_singleton hxs]
        simp only [Filler.agrees, hown, Bool.false_eq_true, if_false, Option.bind_some, hget, hseed]
        cases Assoc.get? xs name with
        | none => simp [Assoc.get?]
        | some y =>
          have hsame : Bound.ofElement y = .ofElement x ↔ y = x := by
            cases x <;> cases y <;> simp [Bound.ofElement]
          simp [hsame]
  rw [Surroundings.admits, htaken, Filler.admits, hl.condition, Filler.fits]
  simp only [Option.all_none, Bool.and_true, Bool.and_assoc, Bool.and_eq_true, hagrees]
  exact and_comm

theorem Stage.Binds.bind (h : s.Binds groups limit xs) {l : Leg} (hl : l.Suits groups) (x : ElementId) :
    Stage.Binds groups limit { s.bind l.filler.name l.repeated x with taken := s.taken }
      (xs ++ l.filler.binds l.repeated x) := by
  refine ⟨fun name hout => ?_, h.taken, ?_⟩
  · cases hown : l.filler.name with
    | none => simpa [Stage.bind, Filler.binds, hown] using h.bindings name hout
    | some own =>
      cases hrepeated : l.repeated with
      | false =>
        simp only [Stage.bind, Filler.binds, hown, Bool.not_false, if_true, Bool.false_eq_true, if_false,
          Option.toList_some, List.map_cons, List.map_nil, Assoc.get?_insertNew, Assoc.get?_append,
          h.bindings name hout]
        by_cases heq : own = name
        · subst heq
          have hhas : s.bindings.has own = (Assoc.get? xs own).isSome := by
            rw [Assoc.has, h.bindings own hout, Option.isSome_map]
          cases hget : Assoc.get? xs own <;> simp [hhas, hget, Assoc.get?]
        · simp [heq, Assoc.get?]
      | true =>
        have hne : own ≠ name := fun heq => hout (heq ▸ (hl.name own hown).mpr hrepeated)
        have hcollect : (Thread.collect s.bindings own x).get? name = s.bindings.get? name := by
          unfold Thread.collect
          split <;> simp [Assoc.get?_insert, hne]
        simp only [Stage.bind, Stage.takenBy?, h.taken, Filler.binds]
        simpa [Assoc.get?, hcollect] using h.bindings name hout
  · rw [← h.room]
    simp only [Stage.walk_bind, Stage.room_bind]

theorem Stage.Binds.extend (h : s.Binds groups limit xs) {room : Nat} (hroom : s.room = room + 1)
    (e : EdgeId) (v : VertexId) :
    Stage.Binds groups limit { s with walk := s.walk.extend e v, room := room } xs := by
  refine ⟨h.bindings, h.taken, ?_⟩
  have := h.room
  simp only [Walk.length_extend]
  omega

variable {c : Surroundings} {l : Leg} {u : Stage}

/-- What stands around a whole path pattern, if nothing was bound before the match. -/
structure Surroundings.IsOutermost (c : Surroundings) : Prop where
  frames : c.frames = []
  repeated : c.repeated = false
  seed : c.env.seed = []

/-- **A way of a leg leads along it**, binds no variable anew and keeps the mode. -/
theorem Leg.leads_of_mem_ways (hc : c.IsOutermost) (hl : l.Suits groups) (h : s.Binds groups limit xs)
    (hxs : IsConsistent xs) (hmode : c.mode.Holds s.walk.toPath) (hu : u ∈ l.ways c s) :
    ∃ ys, l.Leads c.env.store s.walk u.walk ys ∧ IsConsistent (xs ++ ys) ∧
      c.mode.Holds u.walk.toPath ∧ u.Binds groups limit (xs ++ ys) := by
  have hadmits := h.admits hxs hc.seed hl
  obtain ⟨v, hv, rfl⟩ := List.mem_map.mp hu
  cases l with
  | node f =>
    rw [element, Element.ways] at hv
    split at hv
    · next hx =>
      obtain rfl := List.mem_singleton.mp hv
      obtain ⟨hfits, hconsistent⟩ := (hadmits _).mp hx
      refine ⟨_, ?_, hconsistent, ?_, h.bind hl _⟩
      · rw [Stage.walk_bind]
        exact .node hfits
      · rwa [Stage.walk_bind]
    · cases hv
  | edge pattern repeated =>
    rw [element, Element.ways] at hv
    split at hv
    · cases hv
    · next room hroom =>
      obtain ⟨edge, hedge, hv⟩ := List.mem_flatMap.mp hv
      split at hv
      · next hx =>
        obtain rfl := List.mem_singleton.mp hv
        obtain ⟨hstep, hx⟩ := Bool.and_eq_true_iff.mp hx
        obtain ⟨hfits, hconsistent⟩ := (hadmits _).mp hx
        refine ⟨_, ?_, hconsistent, ?_, (h.extend hroom edge.1 edge.2).bind hl _⟩
        · rw [Stage.cross, Stage.walk_bind]
          exact .edge hedge hfits
        · rw [Stage.cross, Stage.walk_bind]
          exact PathMode.holds_extend hmode (Bool.and_eq_true_iff.mp hstep).1
      · cases hv

/-- **A leg that leads to a walk has a way to it**, if the mode and the limit allow the walk. -/
theorem Leg.mem_ways_of_leads (hc : c.IsOutermost) (hl : l.Suits groups) (h : s.Binds groups limit xs)
    {w : Walk} {ys : List (String × ElementId)} (hleads : l.Leads c.env.store s.walk w ys)
    (hxs : IsConsistent (xs ++ ys)) (hmode : c.mode.Holds w.toPath) (hlimit : w.length ≤ limit) :
    ∃ u ∈ l.ways c s, u.walk = w ∧ u.Binds groups limit (xs ++ ys) := by
  have hadmits := h.admits hxs.of_append hc.seed hl
  generalize hw : s.walk = before at hleads
  cases hleads with
  | @node f _ hfits =>
    subst hw
    have hx := (hadmits (.vertex s.walk.current)).mpr ⟨hfits, hxs⟩
    refine ⟨_, List.mem_map_of_mem ?_, s.walk_bind .., h.bind hl _⟩
    rw [element, Element.ways]
    exact List.mem_ite_nil_right.mpr ⟨hx, List.mem_singleton_self _⟩
  | @edge pattern repeated _ e v hedge hfits =>
    subst hw
    have hx := (hadmits (.edge e)).mpr ⟨hfits, hxs⟩
    obtain ⟨room, hroom⟩ : ∃ room, s.room = room + 1 := ⟨s.room - 1, by
      have := h.room
      rw [Walk.length_extend] at hlimit
      omega⟩
    have hstep : c.admitsStep s.walk e v = true := by
      rw [Surroundings.admitsStep, hc.frames, (PathMode.holds_extend_iff.mp hmode).2]
      rfl
    refine ⟨_, List.mem_map_of_mem ?_, Stage.walk_bind .., (h.extend hroom e v).bind hl _⟩
    rw [element, Element.ways, hroom]
    refine List.mem_flatMap.mpr ⟨(e, v), hedge, List.mem_ite_nil_right.mpr ⟨?_, List.mem_singleton_self _⟩⟩
    exact Bool.and_eq_true_iff.mpr ⟨hstep, hx⟩

/-! ## Walks along a route -/

theorem Leg.Leads.start_eq {store : Store} {w u : Walk} {ys : List (String × ElementId)}
    (h : l.Leads store w u ys) : u.start = w.start := by
  cases h <;> rfl

/-- A mode that allows a walk allows it up to its last leg, which is no shorter. -/
theorem Leg.Leads.before {store : Store} {mode : PathMode} {w u : Walk}
    {ys : List (String × ElementId)} (h : l.Leads store w u ys) (hmode : mode.Holds u.toPath) :
    mode.Holds w.toPath ∧ w.length ≤ u.length := by
  cases h with
  | node => exact ⟨hmode, Nat.le_refl _⟩
  | edge => exact ⟨(PathMode.holds_extend_iff.mp hmode).1, by simp⟩

/-- All walks that a search finds along a route. -/
def Route.walks (c : Surroundings) (limit : Nat) (r : Route) : List Walk :=
  (c.env.store.vertices.flatMap fun v => r.ways c (.start v [] limit)).map (·.walk)

theorem Route.traces_of_mem_ways (hc : c.IsOutermost) {r : Route} (hr : ∀ l ∈ r, l.Suits groups)
    {v : VertexId} (hv : v ∈ c.env.store.vertices) (hu : u ∈ r.ways c (.start v [] limit)) :
    ∃ xs, r.Traces c.env.store u.walk xs ∧ IsConsistent xs ∧ c.mode.Holds u.walk.toPath ∧
      u.Binds groups limit xs := by
  induction r using List.reverseRecOn generalizing u with
  | nil =>
    obtain rfl := List.mem_singleton.mp hu
    exact ⟨[], .start hv, nofun, c.mode.holds_vertex v, fun _ _ => rfl, rfl, Nat.zero_add _⟩
  | append_singleton r l ih =>
    rw [ways_append] at hu
    obtain ⟨s, hs, hu⟩ := List.mem_flatMap.mp hu
    rw [ways_singleton] at hu
    obtain ⟨xs, htraces, hxs, hmode, hbinds⟩ := ih (fun l hl => hr l (List.mem_append_left _ hl)) hs
    obtain ⟨ys, hleads, hconsistent, hmode', hbinds'⟩ :=
      l.leads_of_mem_ways hc (hr l (by simp)) hbinds hxs hmode hu
    exact ⟨xs ++ ys, .leg htraces hleads, hconsistent, hmode', hbinds'⟩

theorem Route.mem_ways_of_traces (hc : c.IsOutermost) {r : Route} {w : Walk}
    (h : r.Traces c.env.store w xs) (hr : ∀ l ∈ r, l.Suits groups) (hxs : IsConsistent xs)
    (hmode : c.mode.Holds w.toPath) (hlimit : w.length ≤ limit) :
    ∃ v ∈ c.env.store.vertices, ∃ u ∈ r.ways c (.start v [] limit),
      u.walk = w ∧ u.Binds groups limit xs := by
  induction h with
  | @start v hv =>
    exact ⟨v, hv, _, List.mem_singleton_self _, rfl, fun _ _ => rfl, rfl, Nat.zero_add _⟩
  | @leg r l w w' xs ys _ hleads ih =>
    obtain ⟨hbefore, hle⟩ := hleads.before hmode
    obtain ⟨v, hv, s, hs, rfl, hbinds⟩ := ih (fun l hl => hr l (List.mem_append_left _ hl))
      hxs.of_append hbefore (Nat.le_trans hle hlimit)
    obtain ⟨u, hu, hwalk, hbinds'⟩ :=
      l.mem_ways_of_leads hc (hr l (by simp)) hbinds hleads hxs hmode hlimit
    refine ⟨v, hv, u, ?_, hwalk, hbinds'⟩
    rw [ways_append]
    exact List.mem_flatMap.mpr ⟨s, hs, by rwa [ways_singleton]⟩

/-- **The walks along a route are those that are traced along it**, if the mode and the limit allow
them. -/
theorem Route.mem_walks (hc : c.IsOutermost) {r : Route} (hr : ∀ l ∈ r, l.Suits groups) {w : Walk} :
    w ∈ r.walks c limit ↔ ∃ xs, r.Traces c.env.store w xs ∧ IsConsistent xs ∧
      c.mode.Holds w.toPath ∧ w.length ≤ limit := by
  simp only [walks, List.mem_map, List.mem_flatMap]
  constructor
  · rintro ⟨u, ⟨v, hv, hu⟩, rfl⟩
    obtain ⟨xs, htraces, hxs, hmode, hbinds⟩ := traces_of_mem_ways hc hr hv hu
    exact ⟨xs, htraces, hxs, hmode, by have := hbinds.room; omega⟩
  · rintro ⟨xs, htraces, hxs, hmode, hlimit⟩
    obtain ⟨v, hv, u, hu, hwalk, -⟩ := mem_ways_of_traces hc htraces hr hxs hmode hlimit
    exact ⟨u, ⟨v, hv, hu⟩, hwalk⟩

end Legs

/-! ### No walk comes twice -/

section Nodup

variable {g : Graph} {c : Surroundings}

/-- What is kept of some choices, each of which leads to one thing. -/
theorem flatMap_ite_singleton {α β : Type} (xs : List α) (keep : α → Bool) (f : α → β) :
    (xs.flatMap fun x => if keep x = true then [f x] else []) = (xs.filter keep).map f := by
  induction xs with
  | nil => rfl
  | cons x xs ih => cases hx : keep x <;> simp [hx, ih]

/-- The walks after a leg are the walk itself, or the walk with different steps after it. -/
theorem Leg.walks_of_ways (hg : g.Indexed) (hstore : c.env.store = g.store) (l : Leg) (s : Stage) :
    ((l.ways c s).map (·.walk)).Nodup ∧
      ∀ u ∈ l.ways c s, ∀ s' : Stage, ∀ u' ∈ l.ways c s', u.walk = u'.walk → s.walk = s'.walk := by
  cases l with
  | node f =>
    have key : ∀ s : Stage, ∀ u ∈ (Leg.node f).ways c s, u.walk = s.walk := by
      intro s u hu
      obtain ⟨v, hv, rfl⟩ := List.mem_map.mp hu
      rw [element, Element.ways] at hv
      obtain ⟨-, hv⟩ := List.mem_ite_nil_right.mp hv
      obtain rfl := List.mem_singleton.mp hv
      exact s.walk_bind ..
    refine ⟨?_, fun u hu s' u' hu' heq => (key s u hu).symm.trans (heq.trans (key s' u' hu'))⟩
    rw [ways, element, Element.ways]
    split <;> simp
  | edge pattern repeated =>
    have key : ∀ s : Stage, ∀ u ∈ (Leg.edge pattern repeated).ways c s,
        ∃ e v, u.walk = s.walk.extend e v := by
      intro s u hu
      obtain ⟨v, hv, rfl⟩ := List.mem_map.mp hu
      rw [element, Element.ways] at hv
      split at hv
      · cases hv
      · obtain ⟨edge, -, hv⟩ := List.mem_flatMap.mp hv
        obtain ⟨-, hv⟩ := List.mem_ite_nil_right.mp hv
        obtain rfl := List.mem_singleton.mp hv
        exact ⟨edge.1, edge.2, Stage.walk_bind ..⟩
    refine ⟨?_, fun u hu s' u' hu' heq => ?_⟩
    · rw [ways, element, Element.ways]
      split
      · exact List.nodup_nil
      · rw [flatMap_ite_singleton, List.map_map, List.map_map, hstore]
        refine List.Nodup.map (fun x y hxy => ?_) ((Graph.nodup_neighbors hg _ _).filter _)
        simp only [Function.comp_apply, Stage.cross, Stage.walk_bind, Walk.extend_inj] at hxy
        exact Prod.ext hxy.2.1 hxy.2.2
    · obtain ⟨e, v, hwalk⟩ := key s u hu
      obtain ⟨e', v', hwalk'⟩ := key s' u' hu'
      rw [hwalk, hwalk'] at heq
      exact (Walk.extend_inj.mp heq).1

/-- **No walk along a route is found twice.** -/
theorem Route.nodup_walks (hg : g.Indexed) (hstore : c.env.store = g.store) (limit : Nat) (r : Route) :
    (r.walks c limit).Nodup := by
  induction r using List.reverseRecOn with
  | nil =>
    have hwalks : walks c limit [] = c.env.store.vertices.map fun v => ⟨v, []⟩ := by
      simp only [walks, ways, List.map_flatMap, List.map_cons, List.map_nil]
      exact (List.map_eq_flatMap ..).symm
    rw [hwalks, hstore]
    exact hg.vertices.nodup.map fun v w h => congrArg Walk.start h
  | append_singleton r l ih =>
    have hsplit : walks c limit (r ++ [l]) =
        (c.env.store.vertices.flatMap fun v => ways c r (.start v [] limit)).flatMap fun s =>
          (l.ways c s).map (·.walk) := by
      simp only [walks, ways_append, List.map_flatMap, List.flatMap_assoc, ways_singleton]
    rw [hsplit, List.nodup_flatMap]
    refine ⟨fun s _ => (l.walks_of_ways hg hstore s).1, ?_⟩
    refine (List.pairwise_map.mp ih).imp fun {s s'} hne => ?_
    refine List.disjoint_left.mpr fun w hw hw' => hne ?_
    obtain ⟨u, hu, rfl⟩ := List.mem_map.mp hw
    obtain ⟨u', hu', heq⟩ := List.mem_map.mp hw'
    exact (l.walks_of_ways hg hstore s).2 u hu s' u' hu' heq.symm

end Nodup

/-! ## Routes from the other end -/

/-- A leg as it is seen from its other end. -/
def Leg.mirror : Leg → Leg
  | node f => node f
  | edge pattern repeated => edge { pattern with direction := pattern.direction.mirror } repeated

/-- A route from its other end. -/
def Route.reversed (r : Route) : Route := (r.map Leg.mirror).reverse

@[simp] theorem Leg.mirror_mirror (l : Leg) : l.mirror.mirror = l := by
  cases l <;> simp [mirror]

@[simp] theorem Route.reversed_reversed (r : Route) : r.reversed.reversed = r := by
  simp [reversed, Function.comp_def]

theorem Leg.Suits.mirror {groups : List String} {l : Leg} (h : l.Suits groups) :
    l.mirror.Suits groups := by
  cases l <;> exact ⟨h.condition, h.name⟩

theorem Route.suits_reversed {groups : List String} {r : Route} (h : ∀ l ∈ r, l.Suits groups) :
    ∀ l ∈ r.reversed, l.Suits groups := by
  intro l hl
  obtain ⟨l', hl', rfl⟩ := List.mem_map.mp (List.mem_reverse.mp hl)
  exact (h l' hl').mirror

namespace Route.Traces

variable {store : Store} {r : Route} {w : Walk} {xs : List (String × ElementId)}

theorem node_cons (h : r.Traces store w xs) {f : NodePattern}
    (hfits : f.fits store (.vertex w.start) = true) :
    Traces store (.node f :: r) w (f.binds false (.vertex w.start) ++ xs) := by
  induction h with
  | @start v hv =>
    rw [List.append_nil]
    exact .leg (.start hv) (.node hfits)
  | leg _ hl ih =>
    rw [hl.start_eq] at hfits ⊢
    rw [← List.append_assoc]
    exact .leg (ih hfits) hl

theorem edge_cons (h : r.Traces store w xs) {pattern : EdgePattern} {repeated : Bool} {v : VertexId}
    {e : EdgeId} (hv : v ∈ store.vertices)
    (hedge : (e, w.start) ∈ store.neighbors v pattern.direction)
    (hfits : pattern.filler.fits store (.edge e) = true) :
    Traces store (.edge pattern repeated :: r) (w.prepend v e)
      (pattern.filler.binds repeated (.edge e) ++ xs) := by
  induction h with
  | start _ =>
    rw [List.append_nil]
    exact .leg (.start hv) (.edge hedge hfits)
  | leg _ hl ih =>
    rw [hl.start_eq] at hedge
    rw [← List.append_assoc]
    refine .leg (ih hedge) ?_
    cases hl with
    | node h =>
      rw [← Walk.current_prepend v e] at h ⊢
      exact .node h
    | edge hedge' h =>
      rw [Walk.extend_prepend]
      rw [← Walk.current_prepend v e] at hedge'
      exact .edge hedge' h

/-- **A walk along a route, turned round, goes along the route from its other end.** -/
theorem reverse {g : Graph} (hg : g.Indexed) (h : r.Traces g.store w xs) :
    Traces g.store r.reversed w.reverse xs.reverse := by
  induction h with
  | start hv => exact .start hv
  | @leg r l w u xs ys hr hl ih =>
    have hys : ys.reverse = ys := by
      cases hl <;> simp only [Filler.binds] <;> split <;> (try rfl) <;>
        cases Filler.name _ <;> rfl
    have hreversed : Route.reversed (r ++ [l]) = l.mirror :: r.reversed := by simp [reversed]
    rw [hreversed, List.reverse_append, hys]
    cases hl with
    | node hfits =>
      rw [← Walk.start_reverse] at hfits ⊢
      exact ih.node_cons hfits
    | edge hedge hfits =>
      rw [Walk.reverse_extend]
      refine ih.edge_cons (hg.neighbors_mem hedge) ?_ hfits
      rw [Walk.start_reverse]
      exact (Graph.mem_neighbors_mirror hg).mpr hedge

end Route.Traces

theorem IsConsistent.reverse {xs : List (String × ElementId)} (h : IsConsistent xs) :
    IsConsistent xs.reverse := fun a ha b hb =>
  h a (List.mem_reverse.mp ha) b (List.mem_reverse.mp hb)

/-- **The walks along a route from its other end are the walks along it, turned round.** -/
theorem Route.walks_reversed {g : Graph} (hg : g.Indexed) {c : Surroundings} (hc : c.IsOutermost)
    (hstore : c.env.store = g.store) {groups : List String} {r : Route}
    (hr : ∀ l ∈ r, l.Suits groups) (limit : Nat) :
    (r.reversed.walks c limit).Perm ((r.walks c limit).map Walk.reverse) := by
  have turned {r : Route} (hr : ∀ l ∈ r, l.Suits groups) {w : Walk} (hw : w ∈ r.walks c limit) :
      w.reverse ∈ r.reversed.walks c limit := by
    obtain ⟨xs, htraces, hxs, hmode, hlimit⟩ := (mem_walks hc hr).mp hw
    rw [hstore] at htraces
    refine (mem_walks hc (suits_reversed hr)).mpr ⟨xs.reverse, ?_, hxs.reverse, ?_, ?_⟩
    · rw [hstore]
      exact htraces.reverse hg
    · rw [Walk.toPath_reverse]
      exact PathMode.holds_reverse.mpr hmode
    · rwa [Walk.length_reverse]
  refine (List.perm_ext_iff_of_nodup (nodup_walks hg hstore limit _)
    ((nodup_walks hg hstore limit r).map fun w u h => ?_)).mpr fun w => ⟨fun hw => ?_, fun hw => ?_⟩
  · rw [← w.reverse_reverse, h, u.reverse_reverse]
  · have hback := turned (suits_reversed hr) hw
    rw [reversed_reversed] at hback
    exact List.mem_map.mpr ⟨w.reverse, hback, w.reverse_reverse⟩
  · obtain ⟨u, hu, rfl⟩ := List.mem_map.mp hw
    exact turned hr hu

end GraphPatterns
