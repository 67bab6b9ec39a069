/-
What a match goes through. A solution of a path pattern comes of a passage (`PathPattern.Leads`), so a
match of several path patterns goes through one passage of each, and each passage goes on with what is
bound after the one before (`GraphPattern.exists_goesThrough`). What holds for every move of a path
pattern, and what happens with it, holds for such a passage (`PathPattern.Leads.strides`).
-/
import GraphPatterns.Proofs.Chains
import GraphPatterns.Proofs.Moves

namespace GraphPatterns

namespace PathPattern

variable {p : PathPattern} {env : Env} {base : Bindings} {x : Solution}

/-- A solution of a path pattern comes of a passage. -/
structure Leads (p : PathPattern) (env : Env) (base : Bindings) (t : Passage) (x : Solution) : Prop where
  mem : t ∈ p.passages env base env.config.maxPathLength
  solution : t.stage.solution? env (.compile p) = some x

theorem exists_leads (hx : x ∈ (Program.compile p).matched env base) : ∃ t, p.Leads env base t x := by
  rw [p.matched_ways, ← p.stages_passages, List.filterMap_map] at hx
  obtain ⟨t, ht, hx⟩ := List.mem_filterMap.mp hx
  exact ⟨t, ht, hx⟩

theorem Leads.strides {t : Passage} (ht : p.Leads env base t x)
    {R : Surroundings → Stage → List Passage.Event → Stage → Prop} (h : Strides p.places R) :
    ∃ v ∈ startVertices env (.compile p) base,
      R ⟨env, p.modeInForce, [], false⟩ (.start v base env.config.maxPathLength) t.events t.stage := by
  obtain ⟨v, hv, htv⟩ := List.mem_flatMap.mp ht.mem
  exact ⟨v, hv, p.expr.passages_of_strides h _ _ (List.Subset.refl _) t htv⟩

theorem exists_of_matched {R : Surroundings → Stage → Stage → Prop} (h : Moves p.places R)
    (hx : x ∈ (Program.compile p).matched env base) :
    ∃ v ∈ startVertices env (.compile p) base, ∃ u : Stage,
      R ⟨env, p.modeInForce, [], false⟩ (.start v base env.config.maxPathLength) u ∧
      u.solution? env (.compile p) = some x := by
  obtain ⟨t, ht⟩ := exists_leads hx
  obtain ⟨v, hv, hr⟩ := ht.strides h.strides
  exact ⟨v, hv, t.stage, hr, ht.solution⟩

end PathPattern

/-- The path that a passage goes along. -/
def Passage.path (t : Passage) : Path := t.stage.walk.toPath

theorem PathPattern.Leads.path_eq {p : PathPattern} {env : Env} {base : Bindings} {t : Passage}
    {x : Solution} (h : p.Leads env base t x) : x.path = t.path := Search.solution?_path h.solution

/-- Passages of some path patterns, each of them with what is bound after the one before it, and what is
bound after the last one. -/
inductive Trek (env : Env) : List PathPattern → Bindings → List Passage → Bindings → Prop where
  | nil (base : Bindings) : Trek env [] base [] base
  | cons {p : PathPattern} {ps : List PathPattern} {base last : Bindings} {t : Passage} {x : Solution}
    {ts : List Passage} (ht : p.Leads env base t x) (hts : Trek env ps x.bindings ts last) :
    Trek env (p :: ps) base (t :: ts) last

theorem Trek.length_eq {env : Env} {ps : List PathPattern} {base last : Bindings} {ts : List Passage}
    (h : Trek env ps base ts last) : ts.length = ps.length := by
  induction h with
  | nil => rfl
  | cons _ _ ih => simp [ih]

/-- **A chain of solutions comes of a trek** along the same paths. -/
theorem Chain.exists_trek {env : Env} {g : Graph} (hg : g.Indexed) (hstore : env.store = g.store)
    (hmax : env.config.maxSteps = none) {ps : List PathPattern} {base last : Bindings}
    {xs : List Solution} (h : Chain env ps base xs last) :
    ∃ ts, Trek env ps base ts last ∧ xs.map (·.path) = ts.map Passage.path := by
  induction h with
  | nil base => exact ⟨[], .nil base, rfl⟩
  | cons hx _ ih =>
    obtain ⟨t, ht⟩ := PathPattern.exists_leads (Program.mem_matched hg hstore hmax hx)
    obtain ⟨ts, hts, hpaths⟩ := ih
    exact ⟨t :: ts, .cons ht hts, by rw [List.map_cons, List.map_cons, hpaths, ht.path_eq]⟩

/-- What a match may have gone through: passages of its path patterns, along its paths, that bind what it
binds. A cap on the steps does not matter. -/
structure GraphPattern.GoesThrough (p : GraphPattern) (env : Env) (m : Match) (ts : List Passage) :
    Prop where
  trek : ∃ last, Trek (env.withSteps none) p.paths [] ts last ∧ m.bindings = Join.combine env.seed last
  paths : m.paths = ts.map Passage.path

namespace GraphPattern

variable {p : GraphPattern} {env : Env} {m : Match} {ts : List Passage}

theorem GoesThrough.length_eq (h : p.GoesThrough env m ts) : ts.length = p.paths.length := by
  obtain ⟨last, htrek, -⟩ := h.trek
  exact htrek.length_eq

theorem GoesThrough.path_eq (h : p.GoesThrough env m ts) {i : Nat} {path : Path} {t : Passage}
    (hpath : m.paths[i]? = some path) (ht : ts[i]? = some t) : t.path = path := by
  rw [h.paths, List.getElem?_map, ht] at hpath
  exact Option.some.inj hpath

/-- **Every match goes through passages of its path patterns.** -/
theorem exists_goesThrough {g : Graph} (hg : g.Indexed) (hstore : env.store = g.store)
    {found : List Match} (h : (p.matches env).map (·.1) = .ok found) :
    ∀ m ∈ found, ∃ ts, p.GoesThrough env m ts := by
  obtain ⟨-, hfound⟩ := mem_matches h
  intro m hm
  obtain ⟨xs, last, hchain, rfl, -⟩ := hfound m hm
  have huncapped : (env.withSteps none).store = g.store := hstore
  obtain ⟨ts, htrek, hpaths⟩ := hchain.exists_trek hg huncapped rfl
  exact ⟨ts, ⟨last, htrek, rfl⟩, hpaths⟩

end GraphPattern

end GraphPatterns
