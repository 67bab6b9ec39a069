/-
A choice for each pair of endpoints. In a graph that was built by operations every walk of a search stays
among the vertices of the graph (`Program.end_matched`), so there are no more pairs of endpoints than the
search counts when it asks whether all of them have what they want. With such a choice the matches of a
path pattern are, for each pair, what its selector selects (`PathPattern.matches_perEndpoints`).
-/
import GraphPatterns.Proofs.GraphIndex
import GraphPatterns.Proofs.PerPair
import GraphPatterns.Proofs.Selected

namespace GraphPatterns

/-! ## Walks in a graph -/

/-- A walk stays among some vertices if every edge leads to one of them. -/
theorem Choice.invariant_current {env : Env} (p : Program) {vs : List VertexId}
    (h : ∀ (v : VertexId) (d : Direction), ∀ step ∈ env.store.neighbors v d, step.2 ∈ vs) :
    Invariant env p fun t => t.walk.current ∈ vs where
  slack _ ht := ht
  execute ht _ he hu := by
    obtain ⟨-, -, hwalk⟩ := Thread.execute_bounded he hu
    rw [hwalk]
    exact ht
  cross _ _ _ hedge _ := by
    rw [Thread.walk_cross, Walk.current_extend]
    exact h _ _ _ hedge

theorem startVertices_subset {env : Env} {g : Graph} (hg : g.Indexed) (hstore : env.store = g.store)
    (p : Program) (base : Bindings) : startVertices env p base ⊆ g.store.vertices := by
  intro v hv
  unfold startVertices at hv
  rw [hstore] at hv
  split at hv
  · exact hv
  · split at hv
    · exact Graph.contains_iff.mp (List.mem_filter.mp hv).2
    · split at hv
      · exact hg.withLabel_subset _ hv
      · exact hv

theorem Program.end_matched {env : Env} {g : Graph} (hg : g.Indexed) (hstore : env.store = g.store)
    {p : Program} {base : Bindings} {x : Solution} (hx : x ∈ p.matched env base) :
    x.path.ends.2 ∈ env.store.vertices := by
  obtain ⟨t, ht, hx⟩ := List.mem_filterMap.mp hx
  obtain ⟨v, hv, ht⟩ := List.mem_flatMap.mp (Outcome.mem_arrivals.mp ht)
  have hinvariant : Choice.Invariant env p fun t => t.walk.current ∈ g.store.vertices :=
    Choice.invariant_current p fun v d step hstep => hg.neighbors_mem (hstore ▸ hstep)
  have hcurrent : t.walk.current ∈ g.store.vertices := hinvariant.arrives
    (c := .resume (.start v base env.config.maxPathLength p.idle))
    (startVertices_subset hg hstore p base hv) ht
  rw [Search.solution?_path hx, Walk.ends_toPath, hstore]
  exact hcurrent

/-! ## Selection among matches -/

/-- The endpoints of the paths of a match. -/
def Match.ends (m : Match) : List (VertexId × VertexId) := m.paths.map (·.ends)

/-- **A search selects from all paths between two vertices.** With a choice for each pair of endpoints,
the matches of a path pattern are what its selector selects for each pair from the matches that the
pattern has without it. -/
theorem PathPattern.matches_perEndpoints (p : PathPattern) (g : Graph) (config : MatchConfig)
    (seed : Bindings) (hg : g.Built) (hmax : config.maxSteps = none)
    (hscope : config.searchScope = .perEndpoints) :
    (p.toGraphPattern.matches ⟨g.store, config, seed⟩).map (·.1) =
      (((p.withSelector .all).toGraphPattern.matches ⟨g.store, config, seed⟩).map (·.1)).map
        (p.selectorInForce.selectPerPair config.shortestTies Match.length Match.ends) := by
  let keepSolutions (xs : List Solution) : List Solution :=
    keep (p.selectorInForce.wantsAmong .perEndpoints config.shortestTies)
      (p.selectorInForce.ordered (·.path.length) xs)
  refine matches_of_solutions (f := keepSolutions) hmax (fun xs => ?_) ?_
  · have hlength (x : Solution) : (x.toMatch seed).length = x.path.length := x.length_toMatch seed
    have hmap := map_keepAfter (Solution.toMatch seed) (fun earlier m => p.selectorInForce.wants
      config.shortestTies ((earlier.filter (Match.ends · = m.ends)).map Match.length) m.length) []
      (p.selectorInForce.ordered (·.path.length) xs)
    rw [← Selector.keep_perPair, Selector.ordered_map]
    simp only [hlength]
    rw [keep, ← List.map_nil, ← hmap]
    refine congrArg (List.map (Solution.toMatch seed)) (keepAfter_congr fun pre x _ _ => ?_)
    have hends (y : Solution) : (y.toMatch seed).ends = (x.toMatch seed).ends ↔
      y.path.ends = x.path.ends := by simp [Match.ends, Solution.toMatch]
    rw [List.filter_map, List.map_map, hlength]
    rw [Selector.wantsAmong, SearchScope.lengths_perEndpoints]
    simp only [Function.comp_def, hends, hlength]
  · rw [Program.solutions_eq hmax (fun _ => minLength_le) fun _ _ => Program.end_matched hg.indexed rfl]
    simp only [hscope]
    rfl

theorem Graph.built_hop : hop.Built := by
  have hvertices := (Built.empty.addVertex [] []).addVertex [] []
  have hadd : (((Graph.empty.addVertex [] []).2.addVertex [] []).2.addEdge ⟨1⟩ ⟨2⟩ true [] []) =
      .ok (⟨1⟩, hop) := rfl
  exact hvertices.addEdge hadd

/-- Of two paths with the same endpoints the second one is dropped; of each pair of endpoints one is
left. -/
theorem matches_perEndpoints_hop :
    let p : PathPattern :=
      { selector := some .any
        expr := .union [[.mk (.node {}) none, .mk (.edge { direction := .right }) none,
          .mk (.node {}) none], [.mk (.node {}) none], [.mk (.node {}) none]] }
    let config : MatchConfig := { maxPathLength := 1, searchScope := .perEndpoints }
    Graph.hop.Built ∧ config.maxSteps = none ∧ config.searchScope = .perEndpoints ∧
      (p.toGraphPattern.matches ⟨Graph.hop.store, config, []⟩).map (·.1) =
        .ok [⟨[], [⟨[⟨1⟩, ⟨2⟩], [⟨1⟩]⟩]⟩, ⟨[], [⟨[⟨1⟩], []⟩]⟩, ⟨[], [⟨[⟨2⟩], []⟩]⟩] := by
  intro p config
  have hall : ((p.withSelector .all).toGraphPattern.matches ⟨Graph.hop.store, config, []⟩).map (·.1) =
      .ok [⟨[], [⟨[⟨1⟩, ⟨2⟩], [⟨1⟩]⟩]⟩, ⟨[], [⟨[⟨1⟩], []⟩]⟩, ⟨[], [⟨[⟨1⟩], []⟩]⟩,
        ⟨[], [⟨[⟨2⟩], []⟩]⟩, ⟨[], [⟨[⟨2⟩], []⟩]⟩] := by
    have hvalid : (p.withSelector .all).toGraphPattern.validate Graph.hop.store true [] = .ok [] := rfl
    have hways : (p.withSelector .all).ways ⟨Graph.hop.store, config, []⟩ [] 1 =
        [⟨⟨⟨1⟩, [(⟨1⟩, ⟨2⟩)]⟩, [], [], 0⟩, ⟨⟨⟨1⟩, []⟩, [], [], 1⟩, ⟨⟨⟨1⟩, []⟩, [], [], 1⟩,
          ⟨⟨⟨2⟩, []⟩, [], [], 1⟩, ⟨⟨⟨2⟩, []⟩, [], [], 1⟩] := rfl
    have hmatches := (p.withSelector .all).matches_ways ⟨Graph.hop.store, config, []⟩ rfl rfl
    rw [show config.maxPathLength = 1 from rfl, hways] at hmatches
    exact hmatches.trans (congrArg (Except.map _) hvalid)
  have hselect := p.matches_perEndpoints Graph.hop config [] Graph.built_hop rfl rfl
  rw [hall] at hselect
  exact ⟨Graph.built_hop, rfl, rfl, hselect⟩

end GraphPatterns
