/-
A search finds what its selector selects from all that match. `Program.matched` lists all solutions, from
a search that takes every arrival; a search under a selector keeps those of them that are wanted when they
are found, in order of length if the selector asks for shortest paths (`Program.solutions_eq`). With one
choice overall that is the selection of the selector (`PathPattern.matches_overall`).
-/
import GraphPatterns.Proofs.Deepening
import GraphPatterns.Proofs.Lengths
import GraphPatterns.Proofs.NestedLoop
import GraphPatterns.Proofs.Refinement

namespace GraphPatterns

/-! ## All solutions -/

namespace Program

/-- The same program under another selector. -/
def withSelector (p : Program) (selector : Selector) : Program := { p with selector := selector }

/-- All that match, whatever the selector. -/
def matched (p : Program) (env : Env) (base : Bindings) : List Solution :=
  (Outcome.arrivals (p.outcomes env base env.config.maxPathLength)).filterMap
    (Search.solution? env p)

variable {p : Program} {env : Env} {base : Bindings}

theorem outcomes_withSelector (selector : Selector) (limit : Nat) :
    (p.withSelector selector).outcomes env base limit = p.outcomes env base limit :=
  List.flatMap_congr fun _ _ =>
    @Choice.outcomes_congr env env p (p.withSelector selector) rfl rfl rfl (fun _ _ => rfl)
      (fun _ _ _ _ => rfl) _

theorem matched_withSelector (selector : Selector) :
    (p.withSelector selector).matched env base = p.matched env base := by
  rw [matched, outcomes_withSelector]
  rfl

/-- The solutions of one length are those that a round of this length offers. -/
theorem offered_eq_filter {l : Nat} (hp : p.selector.isShortest = true)
    (hl : l ≤ env.config.maxPathLength) :
    p.offered env base l = (p.matched env base).filter (·.path.length = l) := by
  obtain ⟨k, hk⟩ := Nat.exists_eq_add_of_le hl
  set wide := Outcome.arrivals (p.outcomes env base env.config.maxPathLength) with hwide
  have hnarrow : (Outcome.arrivals (p.outcomes env base l)).map (·.deepen k) =
      wide.filter (k ≤ ·.room) := by
    rw [hwide, hk]
    exact (arrivals_add l k).symm
  -- With `k` edges left of the greatest length, the walk has `l` edges.
  have hlength (t : Thread) (ht : t ∈ wide) : t.room = k ↔ t.walk.length = l := by
    have := length_add_room ht
    omega
  have hsolution : Search.solution? env p = Search.solution? env p ∘ Thread.deepen k := rfl
  have hroom : ((Outcome.arrivals (p.outcomes env base l)).filter (·.room = 0)).map (·.deepen k) =
      wide.filter (·.walk.length = l) := by
    have hzero : (fun t : Thread => decide (t.room = 0)) =
        (fun t : Thread => decide (t.room = k)) ∘ Thread.deepen k := by
      funext t
      simp
    rw [hzero, ← List.filter_map, hnarrow, List.filter_filter]
    refine List.filter_congr fun t ht => ?_
    rw [Bool.eq_iff_iff]
    simp only [Bool.and_eq_true, decide_eq_true_eq, ← hlength t ht]
    omega
  rw [offered, candidates_shortest hp, matched, List.filter_filterMap]
  conv_lhs => rw [hsolution]
  rw [← List.filterMap_map, hroom, List.filterMap_filter]
  refine List.filterMap_congr fun t _ => ?_
  cases hx : Search.solution? env p t with
  | none => simp
  | some x =>
    simp only [Option.filter, Search.solution?_path hx, Walk.length_toPath, decide_eq_true_eq]

theorem length_matched_le {x : Solution} (hx : x ∈ p.matched env base) :
    x.path.length ≤ env.config.maxPathLength := by
  obtain ⟨t, ht, hx⟩ := List.mem_filterMap.mp hx
  have := length_add_room ht
  rw [Search.solution?_path hx, Walk.length_toPath]
  omega

theorem start_matched {x : Solution} (hx : x ∈ p.matched env base) :
    x.path.ends.1 ∈ startVertices env p base := by
  obtain ⟨t, ht, hx⟩ := List.mem_filterMap.mp hx
  obtain ⟨v, hv, ht⟩ := List.mem_flatMap.mp (Outcome.mem_arrivals.mp ht)
  have hstart : t.walk.start = v := (Choice.invariant_start env p v).arrives
    (c := .resume (.start v base env.config.maxPathLength p.idle)) rfl ht
  rw [Search.solution?_path hx, Walk.ends_toPath, hstart]
  exact hv

/-! ## Solutions under a selector -/

/-- A choice that has not begun has the same controller for all endpoints. -/
theorem controller_judge (p : Program) (env : Env) (ends : VertexId × VertexId) :
    (p.judge env).controller (Search.fresh env p) ends = Search.fresh env p := by
  rw [judge]
  cases env.config.searchScope <;> rfl

theorem tracks_judge (p : Program) (env : Env) :
    (p.judge env).Tracks (Search.fresh env p) env.config.searchScope p.selector
      env.config.shortestTies [] 0 :=
  Judge.tracks_start ..

/-- **What a search finds is what is wanted among all solutions.** The search for shortest paths rests on
two things: no solution is shorter than the first round looks for, and with a choice for each pair of
endpoints each solution ends at a vertex that counts. -/
theorem solutions_eq (hmax : env.config.maxSteps = none)
    (hmin : ∀ x ∈ p.matched env base, p.minLength ≤ x.path.length)
    (hends : env.config.searchScope = .perEndpoints → ∀ x ∈ p.matched env base,
      x.path.ends.2 ∈ env.store.vertices) :
    p.solutions env base =
      keep (p.selector.wantsAmong env.config.searchScope env.config.shortestTies)
        (p.selector.ordered (·.path.length) (p.matched env base)) := by
  have htracks := p.tracks_judge env
  cases ht : (Search.fresh env p).terminated with
  | true =>
    rw [(p.solutions_of_terminated env base ht).1]
    refine (htracks.keepAfter_eq_nil fun x _ => ⟨?_, fun _ => Nat.zero_le _⟩).symm
    rw [controller_judge]
    exact ht
  | false =>
    cases hp : p.selector.isShortest with
    | false =>
      obtain ⟨hfound, -⟩ := p.solutions_plain env base hmax hp ht
      have hall : p.candidates env (p.outcomes env base env.config.maxPathLength) =
          p.matched env base := candidates_plain hp _
      rw [hall] at hfound
      rw [hfound, Selector.ordered, hp, if_neg Bool.false_ne_true]
      exact (htracks.sift fun hs => by simp [hp] at hs).1
    | true =>
      have hrounds := congrArg Prod.fst (p.solutions_shortest env base hmax hp ht)
      simp only at hrounds
      rw [hrounds, Selector.ordered, if_pos hp]
      by_cases hcap : env.config.maxPathLength < p.minLength
      · have hnone : p.matched env base = [] := List.eq_nil_iff_forall_not_mem.mpr fun x hx => by
          have := hmin x hx
          have := length_matched_le hx
          omega
        rw [if_pos hcap, hnone, sortedBy_of_pairwise _ .nil]
        rfl
      · have hcount : ∀ x ∈ p.matched env base, x.path.length <
            p.minLength + (env.config.maxPathLength - p.minLength + 1) := fun x hx => by
          have := length_matched_le hx
          omega
        have hfilter : ∀ l ∈ List.range' p.minLength (env.config.maxPathLength - p.minLength + 1),
            (p.matched env base).filter (·.path.length = l) = p.offered env base l := fun l hl => by
          have := (List.mem_range'_1.mp hl).2
          exact (offered_eq_filter hp (by omega)).symm
        rw [if_neg hcap, sortedBy_eq_flatMap _ hmin hcount, List.flatMap_congr hfilter]
        refine rounds_eq hp (List.length_product (startVertices env p base) env.store.vertices)
          (htracks.mono fun _ => Nat.zero_le _) (fun _ x hx => by cases hx) fun hs l hl x hx => ?_
        rw [offered_eq_filter hp (by omega)] at hx
        have hmatched := (List.mem_filter.mp hx).1
        exact List.mem_product.mpr ⟨start_matched hmatched, hends hs x hmatched⟩

theorem solutions_all (hmax : env.config.maxSteps = none) (hp : p.selector = .all) :
    p.solutions env base = p.matched env base := by
  have hs : p.selector.isShortest = false := by rw [hp]; rfl
  have ht : (Search.fresh env p).terminated = false := by simp [Search.fresh, Controller.start, hp]
  obtain ⟨hfound, -⟩ := p.solutions_plain env base hmax hs ht
  rw [hfound, candidates_plain hs]
  refine ((p.tracks_judge env).sift fun h => by simp [hs] at h).1.trans ?_
  refine (keepAfter_eq_filter (p := fun _ => true) fun _ _ _ _ => ?_).trans (List.filter_true _)
  rw [hp]
  rfl

end Program

/-! ## Selection among matches -/

/-- The number of edges on the paths of a match. -/
def Match.length (m : Match) : Nat := (m.paths.flatMap (·.edges)).length

/-- The match of a solution of a single path pattern. -/
def Solution.toMatch (seed : Bindings) (x : Solution) : Match :=
  ⟨Join.combine seed x.bindings, [x.path]⟩

@[simp] theorem Solution.length_toMatch (seed : Bindings) (x : Solution) :
    (x.toMatch seed).length = x.path.length := by
  simp [Match.length, toMatch, Path.length]

/-- The solution of a stage at the end of a match. -/
def Stage.solution? (env : Env) (p : Program) (s : Stage) : Option Solution :=
  Search.solution? env p { Thread.start s.walk.start s.bindings s.room 0 with walk := s.walk }

namespace PathPattern

/-- The same path pattern under another selector. -/
def withSelector (p : PathPattern) (selector : Selector) : PathPattern :=
  { p with selector := some selector }

theorem matches_single (p : PathPattern) (env : Env) (hmax : env.config.maxSteps = none) :
    (p.toGraphPattern.matches env).map (·.1) =
      (p.toGraphPattern.validate env.store env.config.strictCatalog env.seed.kinds).map fun _ =>
        ((Program.compile p).solutions env []).map (·.toMatch env.seed) := by
  have hall : (p.toGraphPattern.join env).all (p.toGraphPattern.paths.map .compile) =
      ((Program.compile p).solutions env []).map (·.toMatch env.seed) := by
    exact (List.map_eq_flatMap ..).symm
  have heq := congrArg (Except.map Prod.fst) (p.toGraphPattern.matches_eq env hmax)
  rw [hall] at heq
  cases hm : p.toGraphPattern.matches env <;>
    cases hv : p.toGraphPattern.validate env.store env.config.strictCatalog env.seed.kinds <;>
    simp only [hm, hv] at heq ⊢ <;> exact heq

theorem matched_ways (p : PathPattern) (env : Env) (base : Bindings) :
    (Program.compile p).matched env base =
      (p.ways env base env.config.maxPathLength).filterMap (Stage.solution? env (.compile p)) := by
  have hways := p.stages_atRound env base env.config.maxPathLength 0 ((Program.compile p).judge env)
  rw [Search.pending_atRound] at hways
  rw [← hways, List.filterMap_map]
  rfl

theorem matches_ways (p : PathPattern) (env : Env) (hmax : env.config.maxSteps = none)
    (hp : p.selectorInForce = .all) :
    (p.toGraphPattern.matches env).map (·.1) =
      (p.toGraphPattern.validate env.store env.config.strictCatalog env.seed.kinds).map fun _ =>
        ((p.ways env [] env.config.maxPathLength).filterMap
          (Stage.solution? env (.compile p))).map (·.toMatch env.seed) := by
  rw [p.matches_single env hmax, Program.solutions_all hmax hp, matched_ways]

theorem minLength_le {p : PathPattern} {env : Env} {base : Bindings} {x : Solution}
    (hx : x ∈ (Program.compile p).matched env base) :
    (Program.compile p).minLength ≤ x.path.length := by
  rw [matched_ways] at hx
  obtain ⟨s, hs, hx⟩ := List.mem_filterMap.mp hx
  rw [Search.solution?_path hx, Walk.length_toPath]
  exact length_ways hs

/-- Where the solutions of a path pattern come from all solutions in some way, its matches come from all
matches in the same way. -/
theorem matches_of_solutions {p : PathPattern} {env : Env} (hmax : env.config.maxSteps = none)
    {f : List Solution → List Solution} {g : List Match → List Match}
    (hfg : ∀ xs : List Solution, (f xs).map (·.toMatch env.seed) = g (xs.map (·.toMatch env.seed)))
    (h : (Program.compile p).solutions env [] = f ((Program.compile p).matched env [])) :
    (p.toGraphPattern.matches env).map (·.1) =
      (((p.withSelector .all).toGraphPattern.matches env).map (·.1)).map g := by
  have hall := (p.withSelector .all).matches_single env hmax
  have hsolutions : (Program.compile (p.withSelector .all)).solutions env [] =
      (Program.compile p).matched env [] :=
    (Program.solutions_all hmax rfl).trans
      (@Program.matched_withSelector (.compile p) env [] .all)
  have hvalid : (p.withSelector .all).toGraphPattern.validate env.store env.config.strictCatalog
      env.seed.kinds =
      p.toGraphPattern.validate env.store env.config.strictCatalog env.seed.kinds := rfl
  rw [hall, hsolutions, hvalid, p.matches_single env hmax, h, hfg]
  cases p.toGraphPattern.validate env.store env.config.strictCatalog env.seed.kinds <;> rfl

/-- **A search selects from all paths.** With one choice overall, the matches of a path pattern are what
its selector selects from the matches that it has without one. -/
theorem matches_overall (p : PathPattern) (env : Env) (hmax : env.config.maxSteps = none)
    (hscope : env.config.searchScope = .overall) :
    (p.toGraphPattern.matches env).map (·.1) =
      (((p.withSelector .all).toGraphPattern.matches env).map (·.1)).map
        (p.selectorInForce.select env.config.shortestTies Match.length) := by
  have hlength (x : Solution) : (x.toMatch env.seed).length = x.path.length :=
    x.length_toMatch env.seed
  refine matches_of_solutions hmax
    (f := p.selectorInForce.select env.config.shortestTies (·.path.length)) (fun xs => ?_) ?_
  · rw [Selector.select_map]
    simp only [hlength]
  · rw [Program.solutions_eq hmax (fun _ => minLength_le) fun h => by simp [hscope] at h,
      ← Selector.keep_wants]
    refine keepAfter_congr fun pre x _ _ => ?_
    rw [hscope, Selector.wantsAmong, SearchScope.lengths_overall]
    rfl

/-- The path over the edge comes first of all, but the shortest paths are the two without an edge. -/
theorem matches_overall_hop :
    let p : PathPattern :=
      { selector := some .allShortest
        expr := .union [[.mk (.node {}) none, .mk (.edge { direction := .right }) none,
          .mk (.node {}) none], [.mk (.node {}) none]] }
    let env : Env := ⟨Graph.hop.store, { maxPathLength := 1 }, []⟩
    env.config.maxSteps = none ∧ env.config.searchScope = .overall ∧
      ((p.withSelector .all).toGraphPattern.matches env).map (·.1) =
        .ok [⟨[], [⟨[⟨1⟩, ⟨2⟩], [⟨1⟩]⟩]⟩, ⟨[], [⟨[⟨1⟩], []⟩]⟩, ⟨[], [⟨[⟨2⟩], []⟩]⟩] ∧
      (p.toGraphPattern.matches env).map (·.1) =
        .ok [⟨[], [⟨[⟨1⟩], []⟩]⟩, ⟨[], [⟨[⟨2⟩], []⟩]⟩] := by
  intro p env
  have hall : ((p.withSelector .all).toGraphPattern.matches env).map (·.1) =
      .ok [⟨[], [⟨[⟨1⟩, ⟨2⟩], [⟨1⟩]⟩]⟩, ⟨[], [⟨[⟨1⟩], []⟩]⟩, ⟨[], [⟨[⟨2⟩], []⟩]⟩] := by
    have hvalid : (p.withSelector .all).toGraphPattern.validate env.store true [] = .ok [] := rfl
    have hways : (p.withSelector .all).ways env [] 1 =
        [⟨⟨⟨1⟩, [(⟨1⟩, ⟨2⟩)]⟩, [], [], 0⟩, ⟨⟨⟨1⟩, []⟩, [], [], 1⟩, ⟨⟨⟨2⟩, []⟩, [], [], 1⟩] := rfl
    have hmatches := (p.withSelector .all).matches_ways env rfl rfl
    rw [show env.config.maxPathLength = 1 from rfl, hways] at hmatches
    exact hmatches.trans (congrArg (Except.map _) hvalid)
  have hsorted : sortedBy Match.length
      [⟨[], [⟨[⟨1⟩, ⟨2⟩], [⟨1⟩]⟩]⟩, ⟨[], [⟨[⟨1⟩], []⟩]⟩, ⟨[], [⟨[⟨2⟩], []⟩]⟩] =
      [⟨[], [⟨[⟨1⟩], []⟩]⟩, ⟨[], [⟨[⟨2⟩], []⟩]⟩, ⟨[], [⟨[⟨1⟩, ⟨2⟩], [⟨1⟩]⟩]⟩] :=
    (@sortedBy_eq_flatMap _ Match.length _ 0 2 (by decide) (by decide)).trans rfl
  have hselect := p.matches_overall env rfl rfl
  rw [hall] at hselect
  refine ⟨rfl, rfl, hall, hselect.trans (congrArg Except.ok ?_)⟩
  rw [show p.selectorInForce = .allShortest from rfl, Selector.select, hsorted]
  rfl

end PathPattern

end GraphPatterns
