/-
A comma joins a path pattern to those before it. What a pattern finds is what the path patterns before
the last comma find, each result of them taken on by the last path pattern, which is matched on its
own with all that the result binds as its seed; the WHERE clause and the match mode then keep some of
it (`GraphPattern.matches_comma`). So a comma can be taken apart into matches that follow one another.
-/
import GraphPatterns.Proofs.GroupVariables
import GraphPatterns.Proofs.LegalMatches
import GraphPatterns.Proofs.Seeded

namespace GraphPatterns

/-- The names that a path pattern binds to groups. -/
def PathPattern.groupNames (p : PathPattern) : List String := Place.groupNames p.places

/-- A combination of solutions with all that is bound after it. -/
def Match.withSeed (seed : Bindings) (m : Match) : Match := ⟨Join.combine seed m.bindings, m.paths⟩

/-- A match with further paths before its own. -/
def Match.after (paths : List Path) (m : Match) : Match := ⟨m.bindings, paths ++ m.paths⟩

namespace GraphPattern

/-- What the search for a pattern finds, whether the pattern makes sense or not. -/
def found (p : GraphPattern) (env : Env) : List Match := (p.join env).all (p.paths.map .compile)

/-- Whether the WHERE clause of a pattern holds of a match and its match mode admits it. -/
def keeps (p : GraphPattern) (store : Store) (m : Match) : Bool :=
  p.condition.all (fun e => e.holds store ⟨m.bindings, [], none, false⟩) &&
    (!(p.mode == some .differentEdges) || (m.paths.flatMap (·.edges)).Nodup)

theorem matches_found (p : GraphPattern) (env : Env) (hmax : env.config.maxSteps = none) :
    (p.matches env).map (·.1) =
      (p.validate env.store env.config.strictCatalog env.seed.kinds).map fun _ => p.found env :=
  p.matches_all env hmax

theorem found_of_matches {p : GraphPattern} {env : Env} (hmax : env.config.maxSteps = none)
    {found : List Match} (h : (p.matches env).map (·.1) = .ok found) : p.found env = found := by
  rw [p.matches_found env hmax] at h
  cases hvalid : p.validate env.store env.config.strictCatalog env.seed.kinds with
  | error e =>
    rw [hvalid] at h
    cases h
  | ok kinds =>
    rw [hvalid] at h
    exact Except.ok.inj h

variable {env : Env} {g : Graph}

theorem admits_eq_keeps (p : GraphPattern) (env : Env) {m : Match} (h : m.bindings.keys.Nodup) :
    (p.join env).admits m.bindings m.paths = p.keeps env.store (m.withSeed env.seed) := by
  have hvisible (name : String) : (m.bindings.get? name).or (env.seed.get? name) =
      ((m.withSeed env.seed).bindings.get? name).or (Assoc.get? [] name) := by
    rw [Match.withSeed, Join.get?_combine h]
    exact (Option.or_none).symm
  have hholds (e : Expr) : e.holds env.store ⟨m.bindings, env.seed, none, false⟩ =
      e.holds env.store ⟨(m.withSeed env.seed).bindings, [], none, false⟩ :=
    Expr.holds_congr (Scope.lookup_congr hvisible ..) e
  simp only [Join.admits, keeps, join, hholds]
  rfl

theorem found_eq {p : GraphPattern} (hp : p.paths ≠ []) (env : Env) :
    p.found env = ((Join.combinations env (p.paths.map .compile) [] []).filter fun m =>
      (p.join env).admits m.bindings m.paths).map (Match.withSeed env.seed) := by
  have hprograms : ¬(p.paths.map Program.compile).isEmpty = true := by simpa using hp
  rw [found, Join.all, if_neg hprograms, Join.results_eq]
  rfl

/-- Without a WHERE clause and a match mode all combinations are matches. -/
theorem found_bare {ps : List PathPattern} (hps : ps ≠ []) (env : Env) :
    ({ paths := ps } : GraphPattern).found env =
      (Join.combinations env (ps.map .compile) [] []).map (Match.withSeed env.seed) := by
  rw [found_eq hps]
  exact congrArg (List.map _) (List.filter_true _)

/-- The WHERE clause and the match mode are a filter at the end. -/
theorem found_eq_filter (hg : g.Indexed) (hstore : env.store = g.store)
    (hmax : env.config.maxSteps = none) {p : GraphPattern} (hp : p.paths ≠ []) :
    p.found env = (({ paths := p.paths } : GraphPattern).found env).filter (p.keeps env.store) := by
  rw [found_eq hp, found_bare hp, List.filter_map]
  refine congrArg (List.map _) (List.filter_congr fun m hm => ?_)
  obtain ⟨xs, hchain, -⟩ := Join.mem_combinations.mp hm
  exact p.admits_eq_keeps env ((hchain.growsTo hg hstore hmax).nodup List.nodup_nil)

/-- The results of a path pattern that goes on from a combination of others are its own matches after
these, with all that is bound as its seed. -/
theorem combinations_singleton (hg : g.Indexed) (hstore : env.store = g.store)
    (hmax : env.config.maxSteps = none) {last : PathPattern} {m : Match} (hbase : m.bindings.keys.Nodup)
    (hgroups : ∀ name ∈ last.groupNames, m.bindings.get? name = none) :
    (Join.combinations env [.compile last] m.bindings m.paths).map (Match.withSeed env.seed) =
      (last.toGraphPattern.found (env.seededWith m.bindings)).map (Match.after m.paths) := by
  have hstore' : (env.seededWith m.bindings).store = g.store := hstore
  rw [PathPattern.toGraphPattern, found_bare (List.cons_ne_nil last [])]
  simp only [List.map_cons, List.map_nil, Join.combinations, ← List.map_eq_flatMap, List.map_map]
  rw [PathPattern.solutions_seeded hg hstore hmax hbase hgroups, List.map_map]
  refine List.map_congr_left fun x hx => ?_
  have hagrees := PathPattern.agrees_matched hbase (Program.mem_matched hg hstore' hmax hx)
  have hcombine := Bindings.combine_extendedBy env.seed hbase hagrees
  simp only [Function.comp_apply, Match.withSeed, Match.after, Solution.onto, hcombine]
  rfl

/-- **A comma goes on with each of the results.** -/
theorem found_append (hg : g.Indexed) (hstore : env.store = g.store)
    (hmax : env.config.maxSteps = none) {first : List PathPattern} {last : PathPattern}
    (hfirst : first ≠ [])
    (hgroups : ∀ xs base, Chain env first [] xs base → ∀ name ∈ last.groupNames, base.get? name = none) :
    ({ paths := first ++ [last] } : GraphPattern).found env =
      (({ paths := first } : GraphPattern).found env).flatMap fun r =>
        (last.toGraphPattern.found { env with seed := r.bindings }).map (Match.after r.paths) := by
  rw [found_bare (List.append_ne_nil_of_left_ne_nil hfirst _), found_bare hfirst, List.map_append,
    Join.combinations_append, List.map_flatMap, List.flatMap_map]
  refine List.flatMap_congr fun m hm => ?_
  obtain ⟨xs, hchain, -⟩ := Join.mem_combinations.mp hm
  exact combinations_singleton hg hstore hmax ((hchain.growsTo hg hstore hmax).nodup List.nodup_nil)
    (hgroups xs m.bindings hchain)

/-- What some path patterns have bound is not a group of another one that shares no group variable
with them. -/
theorem get?_of_unshared (hg : g.Indexed) (hstore : env.store = g.store)
    (hmax : env.config.maxSteps = none) {p : GraphPattern} {first : List PathPattern} {last : PathPattern}
    (hpaths : p.paths = first ++ [last]) {strict : Bool} {bound kinds : VariableKinds}
    (hvalid : p.validate env.store strict bound = .ok kinds)
    (hshared : ∀ q ∈ first, ∀ name ∈ last.groupNames, name ∉ q.groupNames) {xs : List Solution}
    {base : Bindings} (hchain : Chain env first [] xs base) :
    ∀ name ∈ last.groupNames, base.get? name = none := by
  intro name hname
  refine Option.eq_none_iff_forall_ne_some.mpr fun b hget => ?_
  obtain ⟨l, hl, hgroup⟩ := List.mem_filterMap.mp hname
  obtain ⟨v, hv, rfl⟩ := Option.map_eq_some_iff.mp hgroup
  -- Who has bound the name has declared it, and declarations of one name are of one kind.
  rcases (hchain.legal hg hstore hmax).2 _ (Assoc.mem_of_get? hget) with hnil | ⟨i, q, x, hq, -, hbinds⟩
  · cases hnil
  · have hq := List.mem_of_getElem? hq
    have hgroups : q.Groups v.1 := PathPattern.groups_of_validate hvalid (by simp [hpaths])
      (by simp [hpaths, hq]) hl hv
    rcases hbinds with ⟨hown, -⟩ | ⟨l', hl', hname', -⟩
    · exact hgroups.1 hown
    · obtain ⟨w, hw⟩ := Option.isSome_iff_exists.mp (hgroups.2 l' hl' hname')
      have hsame : w.1 = v.1 := Option.some.inj ((l'.name?_of_groupVariable? hw).symm.trans hname')
      exact hshared q hq v.1 hname (hsame ▸ Place.mem_groupNames hl' hw)

/-- **A comma is a nested loop of seeded matches.** The matches of a pattern that makes sense are had
by taking the matches of the path patterns before the last one, in order, and for each of them the
matches of the last path pattern on its own, with all that is bound so far as its seed; of these the
WHERE clause and the match mode keep some. The last path pattern must not bind a group that one before
it binds, and must make sense with each of the seeds. -/
theorem matches_comma (p : GraphPattern) (g : Graph) (config : MatchConfig) (seed : Bindings)
    {first : List PathPattern} {last : PathPattern} {kinds : VariableKinds} (hg : g.Built)
    (hmax : config.maxSteps = none) (hpaths : p.paths = first ++ [last]) (hfirst : first ≠ [])
    (hvalid : p.validate g.store config.strictCatalog seed.kinds = .ok kinds)
    (hshared : ∀ q ∈ first, ∀ name ∈ last.groupNames, name ∉ q.groupNames) :
    let env : Env := ⟨g.store, config, seed⟩
    let before : GraphPattern := { paths := first }
    ((before.matches env).map (·.1) = (before.validate g.store config.strictCatalog seed.kinds).map
        fun _ => before.found env) ∧
      ∀ calls : Match → List Match,
        (∀ r ∈ before.found env,
          (last.toGraphPattern.matches ⟨g.store, config, r.bindings⟩).map (·.1) = .ok (calls r)) →
        (p.matches env).map (·.1) = .ok (((before.found env).flatMap fun r =>
          (calls r).map (Match.after r.paths)).filter (p.keeps g.store)) := by
  intro env before
  refine ⟨before.matches_found env hmax, fun calls hcalls => ?_⟩
  have hstore : env.store = g.store := rfl
  have hmax' : env.config.maxSteps = none := hmax
  have hne : p.paths ≠ [] := by simp [hpaths]
  have hcall : ∀ r ∈ before.found env,
      last.toGraphPattern.found { env with seed := r.bindings } = calls r := fun r hr =>
    found_of_matches hmax (hcalls r hr)
  have happend := found_append hg.indexed hstore hmax' hfirst fun xs base hchain =>
    get?_of_unshared hg.indexed hstore hmax' hpaths hvalid hshared hchain
  have hjoined : p.found env = ((before.found env).flatMap fun r =>
      (calls r).map (Match.after r.paths)).filter (p.keeps g.store) := by
    rw [found_eq_filter hg.indexed hstore hmax' hne, hpaths, happend]
    exact congrArg (List.filter _) (List.flatMap_congr fun r hr => by rw [hcall r hr])
  rw [matches_found p env hmax', ← hjoined]
  exact congrArg (Except.map _) hvalid

end GraphPattern

/-- A path over an edge, with variables for its ends. -/
def PathPattern.endsHop : PathPattern :=
  { expr := .term [.mk (.node { name := some "a" }) none, .mk (.edge { direction := .right }) none,
      .mk (.node { name := some "b" }) none] }

/-- The vertex that such a path ends at. -/
def PathPattern.endVertex : PathPattern := { expr := .term [.mk (.node { name := some "b" }) none] }

/-- A path over the one edge, and the vertex that it ends at: the second path pattern has to find the
vertex that the first one has bound. -/
theorem matches_comma_hop :
    let p : GraphPattern :=
      { mode := some .differentEdges
        paths := [.endsHop] ++ [.endVertex]
        condition := some (.binary .ne (.var "a") (.var "b")) }
    let config : MatchConfig := { maxPathLength := 1 }
    let bound : Bindings := [("a", .vertex ⟨1⟩), ("b", .vertex ⟨2⟩)]
    Graph.hop.Built ∧ config.maxSteps = none ∧
      p.validate Graph.hop.store config.strictCatalog [] = .ok [("a", .node), ("b", .node)] ∧
      (∀ q ∈ [PathPattern.endsHop], ∀ name ∈ PathPattern.endVertex.groupNames, name ∉ q.groupNames) ∧
      (PathPattern.endsHop.toGraphPattern.matches ⟨Graph.hop.store, config, []⟩).map (·.1) =
        .ok [⟨bound, [⟨[⟨1⟩, ⟨2⟩], [⟨1⟩]⟩]⟩] ∧
      (PathPattern.endVertex.toGraphPattern.matches ⟨Graph.hop.store, config, bound⟩).map (·.1) =
        .ok [⟨bound, [⟨[⟨2⟩], []⟩]⟩] ∧
      (p.matches ⟨Graph.hop.store, config, []⟩).map (·.1) =
        .ok [⟨bound, [⟨[⟨1⟩, ⟨2⟩], [⟨1⟩]⟩, ⟨[⟨2⟩], []⟩]⟩] := by
  intro p config bound
  have hvalid : p.validate Graph.hop.store true [] = .ok [("a", .node), ("b", .node)] := rfl
  have hnames : PathPattern.endVertex.groupNames = [] := rfl
  have hshared : ∀ q ∈ [PathPattern.endsHop], ∀ name ∈ PathPattern.endVertex.groupNames,
      name ∉ q.groupNames := by simp [hnames]
  have hbefore : (PathPattern.endsHop.toGraphPattern.matches ⟨Graph.hop.store, config, []⟩).map (·.1) =
      .ok [⟨bound, [⟨[⟨1⟩, ⟨2⟩], [⟨1⟩]⟩]⟩] := by
    have hways : PathPattern.endsHop.ways ⟨Graph.hop.store, config, []⟩ [] 1 =
        [⟨⟨⟨1⟩, [(⟨1⟩, ⟨2⟩)]⟩, bound, [], 0⟩] := rfl
    have hmatches := PathPattern.endsHop.matches_ways ⟨Graph.hop.store, config, []⟩ rfl rfl
    rw [show config.maxPathLength = 1 from rfl, hways] at hmatches
    exact hmatches
  have hcall : (PathPattern.endVertex.toGraphPattern.matches ⟨Graph.hop.store, config, bound⟩).map (·.1) =
      .ok [⟨bound, [⟨[⟨2⟩], []⟩]⟩] := by
    have hways : PathPattern.endVertex.ways ⟨Graph.hop.store, config, bound⟩ [] 1 =
        [⟨⟨⟨2⟩, []⟩, [("b", .vertex ⟨2⟩)], [], 1⟩] := rfl
    have hmatches := PathPattern.endVertex.matches_ways ⟨Graph.hop.store, config, bound⟩ rfl rfl
    rw [show config.maxPathLength = 1 from rfl, hways] at hmatches
    exact hmatches
  have hfound : GraphPattern.found { paths := [.endsHop] } ⟨Graph.hop.store, config, []⟩ =
      [⟨bound, [⟨[⟨1⟩, ⟨2⟩], [⟨1⟩]⟩]⟩] := GraphPattern.found_of_matches rfl hbefore
  obtain ⟨-, hcomma⟩ := p.matches_comma Graph.hop config [] Graph.built_hop rfl rfl
    (List.cons_ne_nil PathPattern.endsHop []) hvalid hshared
  have hjoined := hcomma (fun _ => [⟨bound, [⟨[⟨2⟩], []⟩]⟩]) fun r hr => by
    rw [hfound] at hr
    obtain rfl := List.mem_singleton.mp hr
    exact hcall
  rw [hfound] at hjoined
  exact ⟨Graph.built_hop, rfl, hvalid, hshared, hbefore, hcall, hjoined⟩

end GraphPatterns
