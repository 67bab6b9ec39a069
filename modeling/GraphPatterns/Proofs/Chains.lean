/-
Where a match comes from. A match of several path patterns is a chain of solutions, one for each path
pattern, each found with what the ones before it have bound (`Join.mem_results`). So what the
solutions of a path pattern add to the bindings is all that has to be known to say what a match binds,
whatever the limits of the search (`GraphPattern.mem_matches`).
-/
import GraphPatterns.Proofs.Endpoints
import GraphPatterns.Proofs.StepCap

namespace GraphPatterns

/-- Solutions of some path patterns, each of them found with what is bound after those before it, and
what is bound after the last one. -/
inductive Chain (env : Env) : List PathPattern → Bindings → List Solution → Bindings → Prop where
  | nil (base : Bindings) : Chain env [] base [] base
  | cons {p : PathPattern} {ps : List PathPattern} {base last : Bindings} {x : Solution}
    {xs : List Solution} (hx : x ∈ (Program.compile p).solutions env base)
    (hxs : Chain env ps x.bindings xs last) : Chain env (p :: ps) base (x :: xs) last

theorem Chain.length_eq {env : Env} {ps : List PathPattern} {base last : Bindings}
    {xs : List Solution} (h : Chain env ps base xs last) : xs.length = ps.length := by
  induction h with
  | nil => rfl
  | cons _ _ ih => simp [ih]

theorem Join.mem_combinations {env : Env} {ps : List PathPattern} {base : Bindings} {paths : List Path}
    {m : Match} : m ∈ combinations env (ps.map .compile) base paths ↔
      ∃ xs, Chain env ps base xs m.bindings ∧ m.paths = paths ++ xs.map (·.path) := by
  induction ps generalizing base paths with
  | nil =>
    rw [List.map_nil, combinations, List.mem_singleton]
    constructor
    · rintro rfl
      exact ⟨[], .nil base, (List.append_nil paths).symm⟩
    · rintro ⟨xs, hchain, hpaths⟩
      obtain ⟨bindings, _⟩ := m
      cases hchain
      exact congrArg _ (hpaths.trans (List.append_nil paths))
  | cons p ps ih =>
    rw [List.map_cons, combinations, List.mem_flatMap]
    constructor
    · rintro ⟨x, hx, hm⟩
      obtain ⟨xs, hchain, hpaths⟩ := ih.mp hm
      exact ⟨x :: xs, .cons hx hchain, by simp [hpaths]⟩
    · rintro ⟨xs, hchain, hpaths⟩
      cases hchain with
      | cons hx hxs => exact ⟨_, hx, ih.mpr ⟨_, hxs, by simp [hpaths]⟩⟩

/-- The matches of some path patterns are those of the chains of their solutions. -/
theorem Join.mem_results {j : Join} {ps : List PathPattern} {base : Bindings} {paths : List Path}
    {m : Match} : m ∈ j.results (ps.map .compile) base paths ↔ ∃ xs last, Chain j.env ps base xs last ∧
      m = ⟨combine j.env.seed last, paths ++ xs.map (·.path)⟩ ∧ j.admits last m.paths = true := by
  rw [results_eq, List.mem_map]
  constructor
  · rintro ⟨⟨last, _⟩, hm, rfl⟩
    obtain ⟨hcombination, hadmits⟩ := List.mem_filter.mp hm
    obtain ⟨xs, hchain, rfl⟩ := mem_combinations.mp hcombination
    exact ⟨xs, last, hchain, rfl, hadmits⟩
  · rintro ⟨xs, last, hchain, rfl, hadmits⟩
    exact ⟨⟨last, _⟩, List.mem_filter.mpr ⟨mem_combinations.mpr ⟨xs, hchain, rfl⟩, hadmits⟩, rfl⟩

/-- A match was found with no cap on the steps as well. -/
theorem Join.mem_collect {j : Join} {programs : List Program} {m : Match}
    (hm : m ∈ (j.collect #[] (j.begin programs)).1) : m ∈ (j.withSteps none).all programs := by
  have hbegin : (j.withSteps none).begin programs = j.begin programs := by cases programs <;> rfl
  have hall := (collect_begin (j := j.withSteps none) rfl programs).1
  rw [hbegin] at hall
  rw [← hall]
  cases hmax : j.env.config.maxSteps with
  | none =>
    have hsame : j.withSteps none = j := by
      rw [← hmax]
      rfl
    rwa [hsame]
  | some most =>
    have hsame : j.withSteps (some most) = j := by
      rw [← hmax]
      rfl
    have hbegins := @collect_withSteps most none j nofun #[] (j.begin programs)
    rw [hsame] at hbegins
    rcases hbegins with heq | ⟨hbegins, -⟩
    · rwa [← heq]
    · exact hbegins.subset hm

/-- **Every match comes of a chain of solutions**, one for each path pattern of a pattern that makes
sense. -/
theorem GraphPattern.mem_matches {g : GraphPattern} {env : Env} {found : List Match}
    (h : (g.matches env).map (·.1) = .ok found) :
    (∃ kinds, g.validate env.store env.config.strictCatalog env.seed.kinds = .ok kinds) ∧
      ∀ m ∈ found, ∃ xs last, Chain (env.withSteps none) g.paths [] xs last ∧
        m = ⟨Join.combine env.seed last, xs.map (·.path)⟩ ∧ (g.join env).admits last m.paths = true := by
  unfold GraphPattern.matches search at h
  cases hvalid : g.validate env.store env.config.strictCatalog env.seed.kinds with
  | error e =>
    rw [hvalid] at h
    cases h
  | ok kinds =>
    rw [hvalid] at h
    cases h
    refine ⟨⟨kinds, rfl⟩, fun m hm => ?_⟩
    have hall := Join.mem_collect (j := g.join env) hm
    rw [Join.all] at hall
    split at hall
    · cases hall
    · obtain ⟨xs, last, hchain, rfl, hadmits⟩ := Join.mem_results.mp hall
      exact ⟨xs, last, hchain, by simp [GraphPattern.join, Join.withSteps, Env.withSteps], hadmits⟩

theorem Program.mem_matched {g : Graph} (hg : g.Indexed) {env : Env} (hstore : env.store = g.store)
    (hmax : env.config.maxSteps = none) {p : PathPattern} {base : Bindings} {x : Solution}
    (hx : x ∈ (compile p).solutions env base) : x ∈ (compile p).matched env base := by
  rw [solutions_eq hmax (fun _ => PathPattern.minLength_le) fun _ _ => end_matched hg hstore] at hx
  have hordered := mem_of_mem_keepAfter hx
  rw [Selector.ordered] at hordered
  split at hordered
  · exact (perm_sortedBy _ _).mem_iff.mp hordered
  · exact hordered

theorem Join.mem_combine {seed bindings : Bindings} {b : String × Bound}
    (h : b ∈ combine seed bindings) : b ∈ seed ∨ b ∈ bindings := by
  induction bindings generalizing seed with
  | nil => exact .inl h
  | cons a bindings ih =>
    rcases ih h with hseed | hlater
    · rcases Assoc.mem_insert hseed with rfl | hseed
      · exact .inr List.mem_cons_self
      · exact .inl hseed
    · exact .inr (List.mem_cons_of_mem _ hlater)

end GraphPatterns
