/-
Choosing where to start is only an optimisation. A search leaves out start vertices that the first node
pattern could not match; one that tries all vertices of the graph in their order finds the same solutions
in the same order (`PathPattern.solutions_everywhere`). It may count more pairs of endpoints before it
stops, so what it looks at is not the same, but no solution comes of it.
-/
import GraphPatterns.Proofs.Endpoints
import GraphPatterns.Proofs.Starts

namespace GraphPatterns

namespace Program

/-- The same program, of which nothing is known about its first node. -/
def everywhere (p : Program) : Program := { p with leadingNode? := none }

variable {env : Env} {p : Program} {base : Bindings}

theorem startVertices_everywhere : startVertices env p.everywhere base = env.store.vertices := rfl

theorem outcomes_everywhere (c : Choice) : c.outcomes env p.everywhere = c.outcomes env p :=
  @Choice.outcomes_congr env env p p.everywhere rfl rfl rfl (fun _ _ => rfl) (fun _ _ _ _ => rfl) c

end Program

namespace PathPattern

variable {g : Graph} {env : Env} {p : PathPattern} {base : Bindings}

theorem matched_everywhere_ways : (Program.compile p).everywhere.matched env base =
    (env.store.vertices.flatMap (p.waysFrom env base env.config.maxPathLength)).filterMap
      (Stage.solution? env (.compile p)) := by
  rw [Program.matched, Program.outcomes, Program.startVertices_everywhere, Outcome.arrivals_flatMap,
    List.filterMap_flatMap, List.filterMap_flatMap]
  refine List.flatMap_congr fun v _ => ?_
  rw [Program.outcomes_everywhere, waysFrom, ← p.stages_start env base env.config.maxPathLength v,
    Choice.stages, List.filterMap_map]
  rfl

/-- The vertices that a search leaves out lead to no solution. -/
theorem matched_everywhere (hg : g.Indexed) (hstore : env.store = g.store) :
    (Program.compile p).everywhere.matched env base = (Program.compile p).matched env base := by
  rw [matched_everywhere_ways, matched_ways, ways_everywhere hg hstore, hstore]

/-- **Where a search starts is of no account.** In a graph that was built by operations, the solutions of
a path pattern are found in the same order if all vertices are tried in the order of the graph. -/
theorem solutions_everywhere (p : PathPattern) (g : Graph) (config : MatchConfig)
    (seed base : Bindings) (hg : g.Built) (hmax : config.maxSteps = none) :
    let env : Env := ⟨g.store, config, seed⟩
    startVertices env (Program.compile p).everywhere base = g.store.vertices ∧
      (Program.compile p).everywhere.solutions env base = (Program.compile p).solutions env base := by
  intro env
  have hmatched : (Program.compile p).everywhere.matched env base =
      (Program.compile p).matched env base := matched_everywhere hg.indexed rfl
  have hmin : ∀ x ∈ (Program.compile p).everywhere.matched env base,
      (Program.compile p).everywhere.minLength ≤ x.path.length := fun x hx =>
    minLength_le (hmatched ▸ hx)
  refine ⟨rfl, ?_⟩
  rw [Program.solutions_eq hmax hmin fun _ _ => Program.end_matched hg.indexed rfl,
    Program.solutions_eq hmax (fun _ => minLength_le) fun _ _ => Program.end_matched hg.indexed rfl,
    hmatched]
  rfl

/-- Only the first vertex has the label, and the pairs of endpoints that a search counts are fewer. -/
theorem solutions_everywhere_hop :
    let p : PathPattern :=
      { selector := some .anyShortest
        expr := .term [.mk (.node { name := some "x" }) none, .mk (.edge { direction := .any }) (some (.between 0 2)),
          .mk (.node {}) none] }
    let config : MatchConfig := { maxPathLength := 1, searchScope := .perEndpoints }
    let base : Bindings := [("x", .vertex ⟨1⟩)]
    let env : Env := ⟨Graph.hop.store, config, []⟩
    Graph.hop.Built ∧ config.maxSteps = none ∧
      startVertices env (.compile p) base = [⟨1⟩] ∧
      startVertices env (Program.compile p).everywhere base = [⟨1⟩, ⟨2⟩] ∧
      (Program.compile p).everywhere.solutions env base = (Program.compile p).solutions env base := by
  intro p config base env
  obtain ⟨hstarts, hsolutions⟩ :=
    p.solutions_everywhere Graph.hop config [] base Graph.built_hop rfl
  exact ⟨Graph.built_hop, rfl, rfl, hstarts.trans rfl, hsolutions⟩

end PathPattern

end GraphPatterns
