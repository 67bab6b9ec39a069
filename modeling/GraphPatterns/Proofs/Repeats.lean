/-
What a repeated factor adds to a group. To the group of an edge variable every move adds edges on its
way (`listsEdges_moves`). A part of a pattern without quantifiers and choices that declares a variable
once adds one element to its group (`PathExpr.takesOne_ways`), so its repetitions add one each, on the
part of the walk that the repetition goes over (`Laps.takesOne`).
-/
import GraphPatterns.Proofs.GroupVariables
import GraphPatterns.Proofs.Tours
import GraphPatterns.Proofs.Walks
import Mathlib.Data.List.Forall2

namespace GraphPatterns

open scoped List

/-! ## Walks that go on -/

/-- A walk is the beginning of another. -/
structure Walk.Begins (w u : Walk) : Prop where
  start : u.start = w.start
  steps : w.steps <+: u.steps

namespace Walk.Begins

variable {w u v : Walk}

theorem refl (w : Walk) : w.Begins w := ⟨rfl, List.prefix_rfl⟩

theorem trans (h₁ : w.Begins u) (h₂ : u.Begins v) : w.Begins v :=
  ⟨h₂.start.trans h₁.start, h₁.steps.trans h₂.steps⟩

theorem extend (w : Walk) (e : EdgeId) (v : VertexId) : w.Begins (w.extend e v) :=
  ⟨rfl, List.prefix_append _ _⟩

theorem length_le (h : w.Begins u) : w.length ≤ u.length := h.steps.length_le

theorem elements (h : w.Begins u) : w.toPath.elements <+: u.toPath.elements := by
  obtain ⟨more, hmore⟩ := h.steps
  rw [elements_toPath, elements_toPath, h.start, ← hmore, List.flatMap_append]
  exact List.prefix_append _ _

theorem edges (h : w.Begins u) : u.edges = w.edges ++ u.edges.drop w.length := by
  obtain ⟨more, hmore⟩ := h.steps
  rw [Walk.edges, ← hmore, List.map_append, Walk.length, List.drop_left' (List.length_map _)]
  rfl

theorem drop_edges (h₁ : w.Begins u) (h₂ : u.Begins v) :
    v.edges.drop w.length = u.edges.drop w.length ++ v.edges.drop u.length := by
  conv => lhs; rw [h₂.edges, List.drop_append_of_le_length (by rw [length_edges]; exact h₁.length_le)]

end Walk.Begins

theorem Stage.begins_moves (places : List Place) : Moves places fun _ s u => s.walk.Begins u.walk where
  refl _ s := .refl s.walk
  trans h₁ h₂ := h₁.trans h₂
  node {_ s _} _ _ := by
    rw [Stage.walk_bind]
    exact .refl s.walk
  edge {_ s _ _ edge} _ _ _ _ _ := by
    rw [Stage.cross, Stage.walk_bind]
    exact .extend s.walk edge.1 edge.2
  group _ hinside _ := hinside
  again hbody := hbody

/-- What goes along a path goes along one of which the path is the beginning. -/
theorem Path.Passes.mono {p p' : Path} {first last : Nat} {xs : List ElementId}
    (h : p.Passes first last xs) (hp : p.elements <+: p'.elements) : p'.Passes first last xs := by
  obtain ⟨ns, hsorted, hrange, hns⟩ := h
  refine ⟨ns, hsorted, hrange, ?_⟩
  rw [← hns]
  refine List.map_congr_left fun n hn => ?_
  have hmem : p.elements[n]? ∈ xs.map some := hns ▸ List.mem_map_of_mem hn
  obtain ⟨x, -, hx⟩ := List.mem_map.mp hmem
  obtain ⟨more, hmore⟩ := hp
  rw [← hmore, List.getElem?_append_left (List.getElem?_eq_some_iff.mp hx.symm).1]

/-! ## Groups -/

/-- What a part of a pattern adds to the group of a variable that it does not declare. -/
theorem Collects.holdsGroup {name : String} {places : List Place} {s u : Stage}
    (h : Collects name places s u) (hnone : ∀ l ∈ places, l.name? ≠ some name) {xs : List ElementId}
    (hs : s.bindings.HoldsGroup name xs) : u.bindings.HoldsGroup name xs := by
  obtain ⟨ys, hys, -, hempty⟩ := h.group xs hs
  rwa [hempty hnone, List.append_nil] at hys

theorem ne_of_count_eq_zero {places : List Place} {name : String}
    (h : (places.filterMap Place.name?).count name = 0) : ∀ l ∈ places, l.name? ≠ some name :=
  fun l hl hname => List.count_eq_zero.mp h (List.mem_filterMap.mpr ⟨l, hl, hname⟩)

/-- Outside of quantifiers nothing is taken for a repetition. -/
theorem Stage.taken_outside_moves (places : List Place) :
    Moves places fun c s u => c.repeated = false → u.taken = s.taken where
  refl _ _ _ := rfl
  trans h₁ h₂ hc := (h₂ hc).trans (h₁ hc)
  node {c s f} _ _ hc := by
    rw [hc]
    cases f.name <;> rfl
  edge {c s pattern _ _} _ _ _ _ _ hc := by
    rw [Stage.cross, hc]
    cases pattern.filler.name <;> rfl
  group _ hinside _ hc := hinside hc
  again _ _ := rfl

/-! ## Edges -/

/-- The walk goes on, and edges on the way are added to the group of a variable. -/
structure ListsEdges (name : String) (s u : Stage) : Prop where
  begins : s.walk.Begins u.walk
  group : ∀ xs, s.bindings.HoldsGroup name xs → ∃ es, es <+ u.walk.edges.drop s.walk.length ∧
    u.bindings.HoldsGroup name (xs ++ es.map .edge)

/-- **Every move adds to the group of an edge variable along its walk.** -/
theorem listsEdges_moves {name : String} {places : List Place}
    (hedges : ∀ l ∈ places, l.name? = some name → ∃ pattern, l = .edge pattern true) :
    Moves places fun _ => ListsEdges name where
  refl _ s := ⟨.refl s.walk, fun xs h => ⟨[], List.nil_sublist _, by simpa using h⟩⟩
  trans {_ s u v} h₁ h₂ := by
    refine ⟨h₁.begins.trans h₂.begins, fun xs h => ?_⟩
    obtain ⟨es, hes, hu⟩ := h₁.group xs h
    obtain ⟨es', hes', hv⟩ := h₂.group _ hu
    refine ⟨es ++ es', ?_, by simpa using hv⟩
    rw [h₁.begins.drop_edges h₂.begins]
    exact hes.append hes'
  node {c s f} hplace _ := by
    have hne : f.name ≠ some name := fun hname => by
      obtain ⟨_, heq⟩ := hedges _ hplace hname
      cases heq
    refine ⟨by rw [Stage.walk_bind]; exact .refl s.walk, fun xs h => ⟨[], List.nil_sublist _, ?_⟩⟩
    rw [List.map_nil, List.append_nil]
    exact (Stage.holdsGroup_bind h (fun hname => absurd hname hne) _).resolve_right fun hk => hne hk.1
  edge {c s pattern room edge} hplace _ _ _ _ := by
    have hwalk : (s.cross pattern c.repeated edge.1 edge.2 room).walk = s.walk.extend edge.1 edge.2 := by
      rw [Stage.cross, Stage.walk_bind]
    have hown (hname : pattern.filler.name = some name) : c.repeated = true := by
      obtain ⟨_, heq⟩ := hedges _ hplace hname
      exact (Place.edge.inj heq).2
    refine ⟨by rw [hwalk]; exact .extend .., fun xs h => ?_⟩
    rw [hwalk, Walk.edges_extend, List.drop_left' (Walk.length_edges _)]
    rcases @Stage.holdsGroup_bind { s with walk := s.walk.extend edge.1 edge.2, room := room } name xs h
      _ _ hown (.edge edge.1) with hsame | ⟨-, hmore⟩
    · exact ⟨[], List.nil_sublist _, (List.append_nil xs).symm ▸ hsame⟩
    · exact ⟨[edge.1], .refl _, hmore⟩
  group {c s u own mode condition bindings} hplace hinside hclose := by
    refine ⟨hinside.begins, fun xs h => ?_⟩
    obtain ⟨es, hes, hu⟩ := hinside.group xs h
    refine ⟨es, hes, hu.closeGroup? hclose fun hown => ?_⟩
    obtain ⟨_, heq⟩ := hedges _ hplace hown
    cases heq
  again h := ⟨h.begins, h.group⟩

/-! ## One element -/

mutual

/-- Whether a part of a pattern has neither quantifiers nor choices. -/
def PathExpr.isLinear : PathExpr → Bool
  | .term factors => termIsLinear factors
  | .union _ => false
  | .multiset _ => false

def termIsLinear : List Factor → Bool
  | [] => true
  | f :: rest => f.isLinear && termIsLinear rest

def Factor.isLinear : Factor → Bool
  | .mk e q => q.isNone && e.isLinear

def Element.isLinear : Element → Bool
  | .node _ => true
  | .edge _ => true
  | .group _ _ body _ => body.isLinear

end

namespace Stage

variable {name : String}

/-- One element is added to the group of a variable. -/
def TakesOne (name : String) (s u : Stage) : Prop :=
  ∀ xs, s.bindings.HoldsGroup name xs → ∃ x, u.bindings.HoldsGroup name (xs ++ [x])

/-- Under a quantifier a variable that has taken no element in this repetition takes one. -/
theorem takesOne_bind {s t : Stage} (hbindings : t.bindings = s.bindings)
    (ht : t.takenBy? (some name) = none) (x : ElementId) : TakesOne name s (t.bind (some name) true x) := by
  intro xs h
  refine ⟨x, ?_⟩
  rw [bind, ht]
  exact .inl ((hbindings ▸ h).collect x)

theorem takenBy?_bind {s : Stage} {own : Option String} (hne : own ≠ some name) (repeated : Bool)
    (x : ElementId) : (s.bind own repeated x).takenBy? (some name) = s.takenBy? (some name) := by
  unfold bind
  split
  · rfl
  · next own =>
    split
    · rfl
    · split
      · rfl
      · have hkey : own ≠ name := fun heq => hne (congrArg some heq)
        simp [takenBy?, Assoc.get?_append, Assoc.get?, hkey]

/-- Where a variable is not declared, it takes nothing. -/
theorem takenBy?_moves {places : List Place} (hnone : ∀ l ∈ places, l.name? ≠ some name) :
    Moves places fun _ s u => u.takenBy? (some name) = s.takenBy? (some name) where
  refl _ _ := rfl
  trans h₁ h₂ := h₂.trans h₁
  node {_ _ _} hplace _ := takenBy?_bind (hnone _ hplace) _ _
  edge {_ s pattern room edge} hplace _ _ _ _ :=
    @takenBy?_bind name { s with walk := s.walk.extend edge.1 edge.2, room := room }
      pattern.filler.name (hnone _ hplace) _ _
  group _ hinside _ := hinside
  again _ := rfl

end Stage

/-- A variable for groups that has one declaration among some places. -/
structure DeclaresOnce (name : String) (places : List Place) : Prop where
  collects : ∀ l ∈ places, l.Collects name
  once : (places.filterMap Place.name?).count name = 1

namespace DeclaresOnce

variable {name : String} {l : Place} {ls ls' : List Place}

theorem of_append (h : DeclaresOnce name (ls ++ ls')) :
    DeclaresOnce name ls ∧ (∀ l ∈ ls', l.name? ≠ some name) ∨
      (∀ l ∈ ls, l.name? ≠ some name) ∧ DeclaresOnce name ls' := by
  have hone := h.once
  rw [List.filterMap_append, List.count_append] at hone
  rcases Nat.eq_zero_or_pos ((ls.filterMap Place.name?).count name) with hzero | hpos
  · exact .inr ⟨ne_of_count_eq_zero hzero, fun l hl => h.collects l (List.mem_append_right _ hl), by omega⟩
  · exact .inl ⟨⟨fun l hl => h.collects l (List.mem_append_left _ hl), by omega⟩,
      ne_of_count_eq_zero (by omega)⟩

theorem of_cons (h : DeclaresOnce name (l :: ls)) (hne : l.name? ≠ some name) : DeclaresOnce name ls := by
  refine ⟨fun l hl => h.collects l (List.mem_cons_of_mem _ hl), ?_⟩
  have hone := h.once
  rw [List.filterMap_cons] at hone
  split at hone
  · exact hone
  · next own hown =>
    rwa [List.count_cons_of_ne fun heq => hne (hown.trans (congrArg some heq))] at hone

theorem name_eq (h : DeclaresOnce name [l]) : l.name? = some name := by
  by_contra hne
  have hone := (h.of_cons hne).once
  simp at hone

end DeclaresOnce

mutual

/-- **Without quantifiers and choices, a variable that is declared once takes one element.** -/
theorem PathExpr.takesOne_ways {name : String} : ∀ (x : PathExpr) (c : Surroundings) (s : Stage),
    x.isLinear = true → c.repeated = true → DeclaresOnce name (x.places true) →
    s.takenBy? (some name) = none → ∀ u ∈ x.ways c s, s.TakesOne name u
  | .term factors, c, s, hx, hc, hname, hs, u, hu => by
    rw [PathExpr.isLinear] at hx
    rw [PathExpr.places] at hname
    rw [PathExpr.ways] at hu
    exact term_takesOne_ways factors c s hx hc hname hs u hu
  | .union terms, c, s, hx, _, _, _, u, _ => by
    rw [PathExpr.isLinear] at hx
    cases hx
  | .multiset terms, c, s, hx, _, _, _, u, _ => by
    rw [PathExpr.isLinear] at hx
    cases hx

theorem term_takesOne_ways {name : String} : ∀ (factors : List Factor) (c : Surroundings) (s : Stage),
    termIsLinear factors = true → c.repeated = true → DeclaresOnce name (termPlaces true factors) →
    s.takenBy? (some name) = none → ∀ u ∈ termWays factors c s, s.TakesOne name u
  | [], c, s, _, _, hname, _, u, _ => by
    cases hname.once
  | f :: rest, c, s, hx, hc, hname, hs, u, hu => by
    rw [termIsLinear, Bool.and_eq_true] at hx
    rw [termPlaces] at hname
    rw [termWays] at hu
    obtain ⟨v, hv, hu⟩ := List.mem_flatMap.mp hu
    have hcollects := hname.collects
    rw [List.forall_mem_append] at hcollects
    have hfirst := f.ways_of_moves (collects_moves hcollects.1) c s (by rw [hc]; exact .refl _) v hv
    have hrest := term_ways_of_moves (collects_moves hcollects.2) rest c v (by rw [hc]; exact .refl _) u hu
    intro xs h
    rcases hname.of_append with ⟨hone, hnone⟩ | ⟨hnone, hone⟩
    · obtain ⟨x, hx⟩ := f.takesOne_ways c s hx.1 hc hone hs v hv xs h
      exact ⟨x, hrest.holdsGroup hnone hx⟩
    · have htaken := f.ways_of_moves (Stage.takenBy?_moves hnone) c s (by rw [hc]; exact .refl _) v hv
      exact term_takesOne_ways rest c v hx.2 hc hone (htaken.trans hs) u hu xs (hfirst.holdsGroup hnone h)

theorem Factor.takesOne_ways {name : String} : ∀ (f : Factor) (c : Surroundings) (s : Stage),
    f.isLinear = true → c.repeated = true → DeclaresOnce name (f.places true) →
    s.takenBy? (some name) = none → ∀ u ∈ f.ways c s, s.TakesOne name u
  | .mk e none, c, s, hx, hc, hname, hs, u, hu => by
    rw [Factor.isLinear] at hx
    rw [Factor.places] at hname
    rw [Factor.ways] at hu
    exact e.takesOne_ways c s hx hc hname hs u hu
  | .mk e (some q), c, s, hx, _, _, _, u, _ => by
    rw [Factor.isLinear] at hx
    cases hx

theorem Element.takesOne_ways {name : String} : ∀ (e : Element) (c : Surroundings) (s : Stage),
    e.isLinear = true → c.repeated = true → DeclaresOnce name (e.places true) →
    s.takenBy? (some name) = none → ∀ u ∈ e.ways c s, s.TakesOne name u
  | .node f, c, s, _, hc, hname, hs, u, hu => by
    rw [Element.places] at hname
    have hf : f.name = some name := hname.name_eq
    rw [Element.ways] at hu
    split at hu
    · obtain rfl := List.mem_singleton.mp hu
      rw [hf, hc]
      exact Stage.takesOne_bind rfl hs _
    · cases hu
  | .edge pattern, c, s, _, hc, hname, hs, u, hu => by
    rw [Element.places] at hname
    have hf : pattern.filler.name = some name := hname.name_eq
    rw [Element.ways] at hu
    split at hu
    · cases hu
    · next room hroom =>
      obtain ⟨edge, -, hu⟩ := List.mem_flatMap.mp hu
      split at hu
      · obtain rfl := List.mem_singleton.mp hu
        rw [Stage.cross, hf, hc]
        exact @Stage.takesOne_bind name s
          { s with walk := s.walk.extend edge.1 edge.2, room := room } rfl hs _
      · cases hu
  | .group own mode body condition, c, s, hx, hc, hname, hs, u, hu => by
    rw [Element.isLinear] at hx
    rw [Element.places] at hname
    rw [Element.ways] at hu
    obtain ⟨v, hv, hu⟩ := List.mem_flatMap.mp hu
    have hne : own ≠ some name := (hname.collects _ List.mem_cons_self).group
    have hinside := body.takesOne_ways { c with frames := ⟨mode.getD .walk, s.walk.length⟩ :: c.frames } s
      hx hc (hname.of_cons hne) hs v hv
    split at hu
    · next bindings hclose =>
      obtain rfl := List.mem_singleton.mp hu
      intro xs h
      obtain ⟨x, hx⟩ := hinside xs h
      exact ⟨x, hx.closeGroup? hclose hne⟩
    · cases hu

end

/-! ## One element of each repetition -/

/-- A list has one element of a path for each of some repetitions, from the part of the path that the
repetition goes over. -/
def Path.ListsLaps (p : Path) (laps : List Lap) (xs : List ElementId) : Prop :=
  List.Forall₂ (fun lap x => p.Passes (2 * lap.start) (2 * lap.stop) [x]) laps xs

theorem Path.ListsLaps.mono {p p' : Path} {laps : List Lap} {xs : List ElementId}
    (h : p.ListsLaps laps xs) (hp : p.elements <+: p'.elements) : p'.ListsLaps laps xs :=
  List.Forall₂.imp (fun _ _ hx => hx.mono hp) h

namespace Laps

variable {body : Stage → List Stage} {s u : Stage} {laps : List Lap}

theorem begins (h : Laps body s laps u) (hbody : ∀ s, ∀ u ∈ body s, s.walk.Begins u.walk) :
    s.walk.Begins u.walk := by
  induction h with
  | nil s => exact .refl s.walk
  | again hu _ ih => exact (hbody _ _ hu).trans ih

theorem length_eq (h : Laps body s laps u)
    (hbody : ∀ s, ∀ u ∈ body s, u.walk.length = s.walk.length + 1) :
    u.walk.length = s.walk.length + laps.length := by
  induction h with
  | nil s => rfl
  | again hu _ ih =>
    rw [ih, List.length_cons, hbody _ _ hu]
    omega

/-- **One element of each repetition**, if the repetitions take one element and go along the walk. -/
theorem takesOne (h : Laps body s laps u) {name : String} {places : List Place}
    (hbegins : ∀ s, ∀ u ∈ body s, s.walk.Begins u.walk)
    (hcollects : ∀ s, ∀ u ∈ body s, Collects name places s u)
    (htakes : ∀ s, s.takenBy? (some name) = none → ∀ u ∈ body s, s.TakesOne name u)
    (hs : s.takenBy? (some name) = none) {xs : List ElementId} (hxs : s.bindings.HoldsGroup name xs) :
    ∃ ys, u.bindings.HoldsGroup name (xs ++ ys) ∧ u.walk.toPath.ListsLaps laps ys := by
  induction h generalizing xs with
  | nil s => exact ⟨[], (List.append_nil xs).symm ▸ hxs, .nil⟩
  | @again s v u laps hv hlaps ih =>
    obtain ⟨x, hx⟩ := htakes s hs v hv xs hxs
    obtain ⟨zs, hzs, hpasses, -⟩ := (hcollects s v hv).group xs hxs
    -- What is collected along the walk of the repetition is the one element that is taken.
    obtain rfl : zs = [x] := List.append_cancel_left (hzs.unique hx)
    obtain ⟨ys, hys, hlists⟩ := ih hs hx
    refine ⟨x :: ys, by simpa using hys, .cons (hpasses.mono ?_) hlists⟩
    exact (hlaps.begins hbegins).elements

end Laps

theorem Element.length_edge_ways {pattern : EdgePattern} {c : Surroundings} {s u : Stage}
    (hu : u ∈ (Element.edge pattern).ways c s) : u.walk.length = s.walk.length + 1 := by
  rw [Element.ways] at hu
  split at hu
  · cases hu
  · obtain ⟨edge, -, hu⟩ := List.mem_flatMap.mp hu
    split at hu
    · obtain rfl := List.mem_singleton.mp hu
      rw [Stage.cross, Stage.walk_bind, Walk.length_extend]
    · cases hu

end GraphPatterns
