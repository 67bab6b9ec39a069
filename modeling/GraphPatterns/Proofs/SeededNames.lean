/-
Which names a search takes for defined. What is bound before a search reaches validation as a kind, and
an empty group has none; so a variable that is bound to one counts as not bound
(`GraphPattern.LeavesOpen`), although a WHERE clause that mentions it would find it. All others that are
bound before the search are defined, and the bindings of a match have no empty groups but those of its
seed and of its variables for groups (`GraphPattern.search_undefined`).
-/
import GraphPatterns.Proofs.Coherence
import GraphPatterns.Proofs.Kinds

namespace GraphPatterns

/-- The variables that have a kind before a search are those that are not bound to an empty group. -/
theorem Bindings.mem_keys_kinds {seed : Bindings} {name : String} :
    name ∈ seed.kinds.keys ↔ ∃ b, (name, b) ∈ seed ∧ b ≠ .group [] := by
  rw [kinds, Assoc.mem_keys_ofList, Assoc.keys, List.mem_map]
  constructor
  · rintro ⟨⟨own, kind⟩, hentry, rfl⟩
    obtain ⟨⟨_, b⟩, hb, hkind⟩ := List.mem_filterMap.mp hentry
    obtain ⟨_, hkind, heq⟩ := Option.map_eq_some_iff.mp hkind
    cases heq
    refine ⟨b, hb, fun hempty => ?_⟩
    rw [Bound.kind?_eq_none_iff.mpr hempty] at hkind
    cases hkind
  · rintro ⟨b, hb, hempty⟩
    obtain ⟨kind, hkind⟩ := Option.ne_none_iff_exists'.mp (mt Bound.kind?_eq_none_iff.mp hempty)
    exact ⟨(name, kind), List.mem_filterMap.mpr ⟨(name, b), hb, by rw [hkind]; rfl⟩, rfl⟩

namespace GraphPattern

/-- A variable is used, and it is neither declared nor bound before the search to anything but an empty
group. -/
def LeavesOpen (g : GraphPattern) (seed : Bindings) (name : String) : Prop :=
  g.UsesVariable name ∧ (¬∃ address kind, g.DeclaresAt address name kind) ∧
    ∀ b, (name, b) ∈ seed → b = .group []

theorem search_eq_error_iff {g : GraphPattern} {env : Env} {e : PatternError} :
    g.search env = .error e ↔ g.validate env.store env.config.strictCatalog env.seed.kinds = .error e := by
  rw [search, Except.bind_eq_error_iff]
  exact or_iff_left fun ⟨_, _, h⟩ => nomatch h

theorem leavesOpen_of_search {g : GraphPattern} {env : Env} {name : String}
    (h : g.search env = .error (.undefinedVariable name)) : g.LeavesOpen env.seed name := by
  obtain ⟨hused, hdeclared, hbound⟩ := undefined_of_validate (search_eq_error_iff.mp h)
  refine ⟨hused, hdeclared, fun b hb => ?_⟩
  by_contra hempty
  exact hbound (Bindings.mem_keys_kinds.mpr ⟨b, hb, hempty⟩)

theorem exists_search_error {g : GraphPattern} {env : Env} {name : String}
    (h : g.LeavesOpen env.seed name) : ∃ e, g.search env = .error e := by
  obtain ⟨hused, hdeclared, hempty⟩ := h
  cases hvalid : g.validate env.store env.config.strictCatalog env.seed.kinds with
  | error e => exact ⟨e, search_eq_error_iff.mpr hvalid⟩
  | ok kinds =>
    obtain ⟨-, hcoherent⟩ := exists_validate_eq_ok_iff.mp ⟨kinds, hvalid⟩
    have hbound := (hcoherent.defined hused).resolve_left hdeclared
    obtain ⟨b, hb, hne⟩ := Bindings.mem_keys_kinds.mp hbound
    exact absurd (hempty b hb) hne

/-- A match binds no empty groups but those of its seed and of its own variables for groups. -/
theorem emptyGroup_of_matches {g : GraphPattern} {graph : Graph} {config : MatchConfig} {seed : Bindings}
    {found : List Match} (hgraph : graph.Built)
    (h : (g.matches ⟨graph.store, config, seed⟩).map (·.1) = .ok found) {m : Match} (hm : m ∈ found)
    {name : String} (hempty : m.bindings.get? name = some (.group [])) :
    (name, .group []) ∈ seed ∨ ∃ address kind, g.DeclaresAt address name kind ∧ kind.isGroup = true := by
  obtain ⟨⟨kinds, hvalid⟩, hfound⟩ := mem_matches h
  have hds := kind_of_validate hvalid
  obtain ⟨xs, last, hchain, rfl, -⟩ := hfound m hm
  have hlast : last.keys.Nodup := (hchain.growsTo hgraph.indexed rfl rfl).nodup List.nodup_nil
  obtain ⟨hsound, -⟩ := hchain.sound hgraph.indexed rfl rfl hds
    (fun q hq => PathPattern.declarations_subset hq) (Bindings.sound_nil kinds [])
  change (Join.combine seed last).get? name = some (.group []) at hempty
  rw [Join.get?_combine hlast] at hempty
  -- What the search did not bind itself is there from before.
  cases hown : last.get? name with
  | none =>
    rw [hown, Option.none_or] at hempty
    exact .inl (Assoc.mem_of_get? hempty)
  | some b =>
    rw [hown, Option.some_or] at hempty
    cases hempty
    obtain ⟨kind, hkind, hdescribes, -⟩ := hsound _ (Assoc.mem_of_get? hown)
    obtain ⟨address, hdeclared⟩ := (get?_iff hds).mp hkind
    refine .inr ⟨address, kind, hdeclared, ?_⟩
    cases kind with
    | nodeGroup | edgeGroup => rfl
    | node | edge | path => exact hdescribes.elim

end GraphPattern

/-! ## An edge that may be left out -/

/-- A graph of one vertex. -/
def Graph.point : Graph := (Graph.empty.addVertex [] []).2

theorem Graph.built_point : point.Built := .addVertex [] [] .empty

/-- A path over an edge or over none. -/
def PathPattern.optionalHop : PathPattern :=
  { expr := .term [.mk (.node {}) none,
      .mk (.edge { filler := { name := some "e" }, direction := .right }) (some .zeroOrOne),
      .mk (.node {}) none] }

/-- Where there are no edges the variable of the edge is bound to an empty group. -/
theorem matches_optionalHop :
    (PathPattern.optionalHop.toGraphPattern.matches ⟨Graph.point.store, { maxPathLength := 1 }, []⟩).map
      (·.1) = .ok [⟨[("e", .group [])], [⟨[⟨1⟩], []⟩]⟩] := by
  let env : Env := ⟨Graph.point.store, { maxPathLength := 1 }, []⟩
  let c : Surroundings := ⟨env, .walk, [], false⟩
  let start : Stage := .start ⟨1⟩ [] 1
  let vertex : Factor := .mk (.node {}) none
  let edge : Element := .edge { filler := { name := some "e" }, direction := .right }
  have hloop : (Factor.mk edge (some .zeroOrOne)).ways c start = [start] := by
    rw [Factor.ways, repetitions_eq, show edge.ways { c with repeated := true } start = [] from rfl]
    rfl
  have hways : PathPattern.optionalHop.ways env [] 1 = [start] := by
    change ((vertex.ways c start).flatMap fun s =>
      ((Factor.mk edge (some .zeroOrOne)).ways c s).flatMap fun u =>
        (vertex.ways c u).flatMap fun w => [w]) ++ [] = _
    rw [show vertex.ways c start = [start] from rfl, List.flatMap_singleton, hloop]
    rfl
  have hmatches := PathPattern.optionalHop.matches_ways env rfl rfl
  rw [show env.config.maxPathLength = 1 from rfl, hways] at hmatches
  exact hmatches

/-- A vertex, if a variable that was bound before the search is not null. -/
def GraphPattern.vertexIfBound (name : String) : GraphPattern :=
  { paths := [{ expr := .term [.mk (.node {}) none] }]
    condition := some (.unary .isNotNull (.var name)) }

/-! ## Undefined variables -/

namespace GraphPattern

/-- **A variable that is reported as undefined is left open**, and no pattern that leaves one open is
searched for. A search with the bindings of an earlier match leaves open what that match found bound to
an empty group, or bound to one itself. -/
theorem search_undefined (g : GraphPattern) (env : Env) :
    (∀ name, g.search env = .error (.undefinedVariable name) → g.LeavesOpen env.seed name) ∧
      (∀ name, g.LeavesOpen env.seed name → ∃ e, g.search env = .error e) ∧
      ∀ (earlier : GraphPattern) (graph : Graph) (config : MatchConfig) (seed : Bindings)
        (found : List Match), graph.Built →
        (earlier.matches ⟨graph.store, config, seed⟩).map (·.1) = .ok found →
        ∀ m ∈ found, env.seed = m.bindings → ∀ name ∈ m.bindings.keys,
          g.search env = .error (.undefinedVariable name) →
          (name, .group []) ∈ seed ∨
            ∃ address kind, earlier.DeclaresAt address name kind ∧ kind.isGroup = true := by
  refine ⟨fun name => leavesOpen_of_search, fun name => exists_search_error, ?_⟩
  intro earlier graph config seed found hgraph hfound m hm hseed name hname herror
  obtain ⟨-, -, hempty⟩ := leavesOpen_of_search herror
  obtain ⟨b, hb⟩ := Option.ne_none_iff_exists'.mp fun hnone => Assoc.get?_eq_none_iff.mp hnone hname
  have hgroup : b = .group [] := hempty b (hseed ▸ Assoc.mem_of_get? hb)
  exact emptyGroup_of_matches hgraph hfound hm (hgroup ▸ hb)

/-- After a match over no edge, a search that asks for the edge leaves its variable open. -/
theorem search_undefined_optionalHop :
    let earlier := PathPattern.optionalHop.toGraphPattern
    let config : MatchConfig := { maxPathLength := 1 }
    let m : Match := ⟨[("e", .group [])], [⟨[⟨1⟩], []⟩]⟩
    let env : Env := ⟨Graph.point.store, config, m.bindings⟩
    Graph.point.Built ∧ (earlier.matches ⟨Graph.point.store, config, []⟩).map (·.1) = .ok [m] ∧
      "e" ∈ m.bindings.keys ∧ (vertexIfBound "e").search env = .error (.undefinedVariable "e") ∧
      (vertexIfBound "e").LeavesOpen env.seed "e" ∧
      ∃ address kind, earlier.DeclaresAt address "e" kind ∧ kind.isGroup = true := by
  intro earlier config m env
  have herror : (vertexIfBound "e").search env = .error (.undefinedVariable "e") := rfl
  have hkey : "e" ∈ m.bindings.keys := List.mem_singleton_self "e"
  obtain ⟨hopen, -, hflow⟩ := (vertexIfBound "e").search_undefined env
  have hdeclared := hflow earlier Graph.point config [] [m] Graph.built_point matches_optionalHop m
    (List.mem_singleton_self m) rfl "e" hkey herror
  exact ⟨Graph.built_point, matches_optionalHop, hkey, herror, hopen "e" herror,
    hdeclared.resolve_left nofun⟩

/-- The variable is reported as undefined although a match has bound it and the WHERE clause, which finds
it there, would hold. -/
theorem search_refuses_emptyGroup :
    let config : MatchConfig := { maxPathLength := 1 }
    let m : Match := ⟨[("e", .group [])], [⟨[⟨1⟩], []⟩]⟩
    (PathPattern.optionalHop.toGraphPattern.matches ⟨Graph.point.store, config, []⟩).map (·.1) =
        .ok [m] ∧
      "e" ∈ m.bindings.keys ∧
      (vertexIfBound "e").search ⟨Graph.point.store, config, m.bindings⟩ =
        .error (.undefinedVariable "e") ∧
      ∀ e, (vertexIfBound "e").condition = some e →
        e.holds Graph.point.store ⟨[], m.bindings, none, false⟩ = true := by
  intro config m
  refine ⟨matches_optionalHop, List.mem_singleton_self "e", rfl, ?_⟩
  rintro _ ⟨⟩
  rfl

end GraphPattern

end GraphPatterns
