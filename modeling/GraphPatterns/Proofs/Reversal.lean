/-
Patterns from the other end. A term of node patterns and edge patterns without WHERE clauses that is
written down from its end to its start, with every edge mirrored, finds the same paths, turned round
(`PathPattern.matches_reversed`). Its ways are those along its routes (`termWays_routes`), and the routes
of the term that is turned round are its routes, turned round.
-/
import GraphPatterns.Proofs.LegalMatches
import GraphPatterns.Proofs.Routes
import GraphPatterns.Proofs.SeedFilter
import Mathlib.Data.List.Permutation

namespace GraphPatterns

/-! ## Plain terms -/

/-- A node pattern, or an edge pattern that may be quantified, without a WHERE clause. -/
def Factor.IsPlain : Factor → Prop
  | .mk (.node f) q => q = none ∧ f.condition = none
  | .mk (.edge pattern) _ => pattern.filler.condition = none
  | .mk (.group ..) _ => False

/-- A factor as it is seen from its other end. -/
def Factor.mirror : Factor → Factor
  | .mk (.edge pattern) q => .mk (.edge { pattern with direction := pattern.direction.mirror }) q
  | f => f

/-- A term from its end to its start. -/
def Term.reversed (t : Term) : Term := (t.map Factor.mirror).reverse

namespace Factor

variable {f : Factor}

theorem isPlain_mirror (h : f.IsPlain) : f.mirror.IsPlain := by
  match f, h with
  | .mk (.node _) _, h => exact h
  | .mk (.edge _) _, h => exact h

@[simp] theorem quantifiers_mirror (f : Factor) : f.mirror.quantifiers = f.quantifiers := by
  match f with
  | .mk (.node _) _ => rfl
  | .mk (.edge _) _ => simp only [mirror, quantifiers, Element.quantifiers]
  | .mk (.group ..) _ => rfl

@[simp] theorem mentions_mirror (f : Factor) : f.mirror.mentions = f.mentions := by
  match f with
  | .mk (.node _) _ => rfl
  | .mk (.edge _) _ => simp only [mirror, mentions, Element.mentions]
  | .mk (.group ..) _ => rfl

@[simp] theorem declarations_mirror (repeated : Bool) (f : Factor) :
    f.mirror.declarations repeated = f.declarations repeated := by
  match f with
  | .mk (.node _) _ => rfl
  | .mk (.edge _) _ => simp only [mirror, declarations, Element.declarations]
  | .mk (.group ..) _ => rfl

/-- No variable is mentioned where there is no WHERE clause. -/
theorem not_variable_of_mentions (h : f.IsPlain) {m : Mention} (hm : m ∈ f.mentions) (name : String) :
    m ≠ .variable name := by
  have bare {f : Filler} (hf : f.condition = none) (hm : m ∈ f.mentions) : m ≠ .variable name := by
    rintro rfl
    cases hlabel : f.label <;> simp [Filler.mentions, conditionMentions, hf, hlabel] at hm
  obtain ⟨element, q⟩ := f
  cases element with
  | node f =>
    simp only [mentions, Element.mentions] at hm
    exact bare h.2 hm
  | edge pattern =>
    simp only [mentions, Element.mentions] at hm
    exact bare h hm
  | group e mode name condition => exact h.elim

end Factor

theorem Term.mem_reversed {t : Term} {f : Factor} : f ∈ t.reversed ↔ ∃ f' ∈ t, f'.mirror = f := by
  rw [reversed, List.mem_reverse, List.mem_map]

/-! ## Routes of a term -/

/-- The routes of a factor, with at most so many repetitions where there is no upper bound. -/
def Factor.routes (cap : Nat) : Factor → List Route
  | .mk (.node f) _ => [[.node f]]
  | .mk (.edge pattern) none => [[.edge pattern false]]
  | .mk (.edge pattern) (some q) =>
    (List.range' q.lower (q.upper.getD cap + 1 - q.lower)).map fun k =>
      List.replicate k (.edge pattern true)
  | .mk (.group ..) _ => []

/-- The routes of a term: a route of each factor, one after the other. -/
def termRoutes (cap : Nat) : Term → List Route
  | [] => [[]]
  | f :: rest => (f.routes cap).flatMap fun r => (termRoutes cap rest).map (r ++ ·)

theorem termRoutes_append (cap : Nat) (t t' : Term) : termRoutes cap (t ++ t') =
    (termRoutes cap t).flatMap fun r => (termRoutes cap t').map (r ++ ·) := by
  induction t with
  | nil => simp [termRoutes]
  | cons f t ih =>
    simp only [List.cons_append, termRoutes, ih, List.flatMap_assoc, List.map_flatMap, List.flatMap_map,
      List.map_map, Function.comp_def, List.append_assoc]

theorem Factor.routes_mirror (cap : Nat) (f : Factor) :
    f.mirror.routes cap = (f.routes cap).map Route.reversed := by
  match f with
  | .mk (.node _) _ => rfl
  | .mk (.edge _) none => rfl
  | .mk (.edge _) (some _) =>
    simp [mirror, routes, Route.reversed, Leg.mirror, List.map_replicate, List.reverse_replicate]
  | .mk (.group ..) _ => rfl

/-- **The routes from the other end** are the routes, each of them from its other end. -/
theorem termRoutes_reversed (cap : Nat) (t : Term) :
    (termRoutes cap t.reversed).Perm ((termRoutes cap t).map Route.reversed) := by
  induction t with
  | nil => exact .refl _
  | cons f t ih =>
    have hlast : Term.reversed (f :: t) = Term.reversed t ++ [f.mirror] := by simp [Term.reversed]
    have hsingle : termRoutes cap [f.mirror] = (f.routes cap).map Route.reversed := by
      simp [termRoutes, Factor.routes_mirror]
    have hreversed (r r' : Route) : Route.reversed (r ++ r') = r'.reversed ++ r.reversed := by
      simp [Route.reversed]
    rw [hlast, termRoutes_append, hsingle, termRoutes]
    refine (ih.flatMap_right _).trans ?_
    simp only [List.flatMap_map, List.map_flatMap, List.map_map, Function.comp_def, hreversed]
    simp only [List.map_eq_flatMap]
    exact flatMap_flatMap_perm _ _ _

/-! ## Ways along routes -/

theorem Leg.ways_of_not_repeated {c : Surroundings} (hc : c.repeated = false) {l : Leg}
    (hl : l.repeated = false) (s : Stage) : l.ways c s = l.element.ways c s := by
  have hsame : { c with repeated := l.repeated } = c := by rw [hl, ← hc]
  have hbind (s : Stage) (name : Option String) (x : ElementId) :
      (s.bind name false x).taken = s.taken := by
    cases name <;> rfl
  have htaken : ∀ u ∈ l.element.ways c s, { u with taken := s.taken } = u := by
    intro u hu
    have hkept : u.taken = s.taken := by
      cases l with
      | node f =>
        rw [element, Element.ways, hc] at hu
        obtain ⟨-, hu⟩ := List.mem_ite_nil_right.mp hu
        rw [List.mem_singleton.mp hu, hbind]
      | edge pattern repeated =>
        rw [element, Element.ways, hc] at hu
        split at hu
        · cases hu
        · obtain ⟨edge, -, hu⟩ := List.mem_flatMap.mp hu
          obtain ⟨-, hu⟩ := List.mem_ite_nil_right.mp hu
          rw [List.mem_singleton.mp hu, Stage.cross, hbind]
    rw [← hkept]
  rw [ways, hsame, List.map_congr_left htaken, List.map_id']

theorem Route.ways_replicate (c : Surroundings) (pattern : EdgePattern) (k : Nat) (s : Stage) :
    Route.ways c (List.replicate k (.edge pattern true)) s =
      iterations ((Element.edge pattern).ways { c with repeated := true }) k s := by
  induction k generalizing s with
  | zero => rw [List.replicate_zero, Route.ways, iterations]
  | succ k ih =>
    rw [List.replicate_succ, Route.ways, iterations, Leg.ways, List.flatMap_map]
    exact List.flatMap_congr fun u _ => ih _

theorem Factor.ways_routes {f : Factor} (hf : f.IsPlain) {c : Surroundings} (hc : c.repeated = false)
    (hbounds : ∀ q ∈ f.quantifiers, q.check = .ok ()) {s : Stage} {cap : Nat} (hroom : s.room ≤ cap) :
    (f.ways c s).Perm ((f.routes cap).flatMap fun r => r.ways c s) := by
  have single {l : Leg} (hl : l.repeated = false) :
      l.element.ways c s = [[l]].flatMap fun r => Route.ways c r s := by
    rw [List.flatMap_singleton, Route.ways_singleton, Leg.ways_of_not_repeated hc hl]
  match f, hf with
  | .mk (.node f) _, ⟨rfl, _⟩ =>
    rw [Factor.ways, routes, ← single (l := .node f) rfl]
    exact .refl _
  | .mk (.edge pattern) none, _ =>
    rw [Factor.ways, routes, ← single (l := .edge pattern false) rfl]
    exact .refl _
  | .mk (.edge pattern) (some q), _ =>
    have hq : ∀ hi ∈ q.upper, q.lower ≤ hi := by
      have hcheck := hbounds q (by simp [quantifiers])
      intro hi hhi
      cases q with
      | between n m =>
        cases hhi
        simp only [Quantifier.check] at hcheck
        split at hcheck
        · cases hcheck
        · next hle => exact Nat.le_of_not_lt hle
      | exactly n => exact Nat.le_of_eq (Option.some.inj hhi)
      | zeroOrMore | oneOrMore | atLeast => cases hhi
      | zeroOrOne | atMost => exact Nat.zero_le _
    rw [Factor.ways, routes, List.flatMap_map]
    simp only [Route.ways_replicate]
    have hless (s : Stage) : ∀ u ∈ (Element.edge pattern).ways { c with repeated := true } s,
        u.room < s.room := fun u hu =>
      Element.room_lt hu ((Element.edge pattern).length_ways { c with repeated := true } s u hu)
    exact repetitions_perm hless hq 0 s (q.upper.getD cap)
      (fun hi hhi => by rw [Option.mem_def.mp hhi, Option.getD_some, Nat.zero_add])
      fun hnone => by rwa [hnone]

/-- **The ways of a term are those along its routes.** -/
theorem termWays_routes {t : Term} (ht : ∀ f ∈ t, f.IsPlain) {c : Surroundings}
    (hc : c.repeated = false) (hbounds : ∀ q ∈ termQuantifiers t, q.check = .ok ()) {s : Stage}
    {cap : Nat} (hroom : s.room ≤ cap) :
    (termWays t c s).Perm ((termRoutes cap t).flatMap fun r => r.ways c s) := by
  induction t generalizing s with
  | nil =>
    rw [termWays, termRoutes, List.flatMap_singleton, Route.ways]
  | cons f t ih =>
    rw [termQuantifiers, List.forall_mem_append] at hbounds
    rw [List.forall_mem_cons] at ht
    have hfirst := f.ways_routes ht.1 hc hbounds.1 hroom
    have hrest : ∀ u ∈ f.ways c s,
        (termWays t c u).Perm ((termRoutes cap t).flatMap fun r => r.ways c u) := fun u hu => by
      have hspent := f.ways_of_moves (Stage.room_moves _) c s (List.Subset.refl _) u hu
      have hlonger := f.length_ways c s u hu
      exact ih ht.2 hbounds.2 (by omega)
    rw [termWays, termRoutes]
    refine ((List.Perm.flatMap_left _ hrest).trans (hfirst.flatMap_right _)).trans ?_
    simp only [List.flatMap_assoc, List.flatMap_map, Route.ways_append]
    exact List.Perm.flatMap_left _ fun r _ => flatMap_flatMap_perm _ _ _

/-! ## Kinds -/

/-- The place of a leg. -/
def Leg.place : Leg → Place
  | .node f => .node f false
  | .edge pattern repeated => .edge pattern repeated

theorem Factor.place_of_mem_routes {f : Factor} (hf : f.IsPlain) {cap : Nat} {r : Route}
    (hr : r ∈ f.routes cap) {l : Leg} (hl : l ∈ r) :
    l.place ∈ f.places false ∧ l.filler.condition = none := by
  match f, hf with
  | .mk (.node f) _, ⟨rfl, hcondition⟩ =>
    obtain rfl := List.mem_singleton.mp hr
    obtain rfl := List.mem_singleton.mp hl
    exact ⟨by simp [Leg.place, places, Element.places], hcondition⟩
  | .mk (.edge pattern) none, hcondition =>
    obtain rfl := List.mem_singleton.mp hr
    obtain rfl := List.mem_singleton.mp hl
    exact ⟨by simp [Leg.place, places, Element.places], hcondition⟩
  | .mk (.edge pattern) (some q), hcondition =>
    obtain ⟨k, -, rfl⟩ := List.mem_map.mp hr
    obtain rfl := List.eq_of_mem_replicate hl
    exact ⟨by simp [Leg.place, places, Element.places], hcondition⟩

theorem place_of_mem_termRoutes {t : Term} (ht : ∀ f ∈ t, f.IsPlain) {cap : Nat} {r : Route}
    (hr : r ∈ termRoutes cap t) {l : Leg} (hl : l ∈ r) :
    l.place ∈ termPlaces false t ∧ l.filler.condition = none := by
  induction t generalizing r with
  | nil =>
    obtain rfl := List.mem_singleton.mp hr
    cases hl
  | cons f t ih =>
    rw [List.forall_mem_cons] at ht
    obtain ⟨r₁, hr₁, hr⟩ := List.mem_flatMap.mp hr
    obtain ⟨r₂, hr₂, rfl⟩ := List.mem_map.mp hr
    rw [termPlaces, List.mem_append]
    rcases List.mem_append.mp hl with hl | hl
    · exact (f.place_of_mem_routes ht.1 hr₁ hl).imp_left .inl
    · exact (ih ht.2 hr₂ hl).imp_left .inr

/-- In a term that makes sense the variables under quantifiers are not used outside of them. -/
theorem suits_of_mem_termRoutes {p : PathPattern} {t : Term} {kinds : VariableKinds}
    (ht : ∀ f ∈ t, f.IsPlain)
    (hkinds : VariableKinds.ofDeclarations (p.allOf t).declarations = .ok kinds) {cap : Nat} {r : Route}
    (hr : r ∈ termRoutes cap t) {l : Leg} (hl : l ∈ r) :
    l.Suits (Place.groupNames (p.allOf t).places) := by
  obtain ⟨hplace, hcondition⟩ := place_of_mem_termRoutes ht hr hl
  have hplaces : (p.allOf t).places = termPlaces false t := by
    rw [PathPattern.places, PathPattern.allOf, PathExpr.places]
  rw [← hplaces] at hplace
  refine ⟨hcondition, fun name hname => ?_⟩
  have hown : l.place.name? = some name := by cases l <;> exact hname
  have hrepeated : l.place.kind.isGroup = l.repeated := by
    rw [Place.isGroup_kind hown]
    cases l with
    | node f => rfl
    | edge pattern repeated =>
      have hf : pattern.filler.name = some name := hname
      cases repeated <;> simp [Leg.place, Place.groupVariable?, hf, Leg.repeated]
  have hkind := VariableKinds.kind_of_place hkinds (List.Subset.refl _) hplace hown
  constructor
  · intro hmem
    obtain ⟨kind, hget, hgroup⟩ := VariableKinds.kind_of_groupName hkinds (List.Subset.refl _) hmem
    rw [← hrepeated, ← hgroup, Option.some.inj (hkind.symm.trans hget)]
  · intro hl
    rw [hl, Place.isGroup_kind hown, Option.isSome_iff_exists] at hrepeated
    obtain ⟨v, hv⟩ := hrepeated
    have hsame : v.1 = name := Option.some.inj ((Place.name?_of_groupVariable? hv).symm.trans hown)
    exact hsame ▸ Place.mem_groupNames hplace hv

/-- Fewer declarations, in any order, make sense if all of them do. -/
theorem VariableKinds.exists_ofDeclarations {ds ds' : List Declaration} {kinds : VariableKinds}
    (h : ofDeclarations ds = .ok kinds) (hsub : ds' ⊆ ds) : ∃ kinds', ofDeclarations ds' = .ok kinds' := by
  obtain ⟨hpath, hone⟩ := exists_ofDeclarations_iff.mp ⟨kinds, h⟩
  exact exists_ofDeclarations_iff.mpr ⟨fun name hd => hpath name (hsub hd),
    fun name kind kind' hd hd' => hone name kind kind' (hsub hd) (hsub hd')⟩

/-- A plain term makes sense from its other end too. -/
theorem PathPattern.valid_reversed {p : PathPattern} {t : Term} {store : Store} {strict : Bool}
    {kinds : VariableKinds} (ht : ∀ f ∈ t, f.IsPlain)
    (h : (p.allOf t).toGraphPattern.Valid store strict [] kinds) :
    ∃ kinds', (p.allOf t.reversed).toGraphPattern.Valid store strict [] kinds' := by
  obtain ⟨hquantifiers, hdeclarations, -, hmentions⟩ := valid_allOf_iff.mp h
  have hdeclared : (p.allOf t.reversed).declarations ⊆ (p.allOf t).declarations := by
    have mem_declarations {t : Term} {d : Declaration} :
        d ∈ termDeclarations false t ↔ ∃ f ∈ t, d ∈ f.declarations false :=
      mem_term_iff rfl fun _ _ => by rw [termDeclarations]
    simp only [declarations, allOf, PathExpr.declarations]
    refine List.append_subset.mpr ⟨List.subset_append_left _ _, fun d hd => ?_⟩
    obtain ⟨f, hf, hd⟩ := mem_declarations.mp hd
    obtain ⟨f', hf', rfl⟩ := Term.mem_reversed.mp hf
    rw [Factor.declarations_mirror] at hd
    exact List.mem_append_right _ (mem_declarations.mpr ⟨f', hf', hd⟩)
  obtain ⟨kinds', hkinds'⟩ := VariableKinds.exists_ofDeclarations hdeclarations hdeclared
  refine ⟨kinds', valid_allOf_iff.mpr ⟨fun q hq => ?_, hkinds', fun _ hv => (List.not_mem_nil hv).elim,
    fun m hm => ?_⟩⟩
  · obtain ⟨f, hf, hq⟩ := mem_termQuantifiers.mp hq
    obtain ⟨f', hf', rfl⟩ := Term.mem_reversed.mp hf
    exact hquantifiers q (mem_termQuantifiers.mpr ⟨f', hf', by rwa [Factor.quantifiers_mirror] at hq⟩)
  · obtain ⟨f, hf, hm⟩ := mem_termMentions.mp hm
    obtain ⟨f', hf', rfl⟩ := Term.mem_reversed.mp hf
    rw [Factor.mentions_mirror] at hm
    have hcheck := hmentions m (mem_termMentions.mpr ⟨f', hf', hm⟩)
    have hvariable := Factor.not_variable_of_mentions (ht f' hf') hm
    cases m with
    | label _ => exact hcheck
    | key _ => exact hcheck
    | «variable» name => exact absurd rfl (hvariable name)

/-! ## Results -/

section Results

variable {p : PathPattern} {t : Term} {g : Graph} {env : Env} {kinds : VariableKinds}

/-- A term without groups between parentheses has a solution for each of its ways, if nothing was bound
before the match. -/
theorem PathPattern.exists_solution (hseed : env.seed = []) (ht : ∀ f ∈ t, f.IsPlain)
    (hkinds : VariableKinds.ofDeclarations (p.allOf t).declarations = .ok kinds) {limit : Nat} {u : Stage}
    (hu : u ∈ (p.allOf t).ways env [] limit) :
    ∃ x, u.solution? env (.compile (p.allOf t)) = some x ∧ x.path = u.walk.toPath := by
  obtain ⟨v, -, hu⟩ := List.mem_flatMap.mp hu
  have hbound := ((p.allOf t).expr.ways_of_moves (legal_moves (p.allOf t).places) _ _
    (List.Subset.refl _) u hu).bindings
  obtain ⟨store, config, _⟩ := env
  obtain rfl : _ = [] := hseed
  set all := (Program.compile (p.allOf t)).withGroups u.bindings
  have hclose : Search.closeGroups? ⟨store, config, []⟩ (.compile (p.allOf t)) u.bindings = some all :=
    Search.closeGroups?_unseeded _ _
  -- The variable of the path stands for no element and no group.
  have hfree {name : String} (hname : p.name = some name) : all.get? name = none := by
    have hpath := VariableKinds.kind_of_name hkinds (List.Subset.refl _) hname
    refine Assoc.get?_eq_none_iff.mpr fun hmem => ?_
    obtain ⟨b, hb, rfl⟩ := List.mem_map.mp hmem
    have hplace : ∃ l ∈ (p.allOf t).places, l.name? = some b.1 := by
      rcases Search.mem_closeGroups? hclose hb u.walk.toPath with hb | ⟨l, hl, hname, -⟩
      · rcases hbound b hb with hb | ⟨l, hl, hname, -⟩
        · cases hb
        · exact ⟨l, hl, hname⟩
      · exact ⟨l, hl, hname⟩
    obtain ⟨l, hl, hown⟩ := hplace
    have hkind := VariableKinds.kind_of_place hkinds (List.Subset.refl _) hl hown
    obtain ⟨mode, condition, repeated, rfl⟩ :=
      Place.kind_eq_path hown (Option.some.inj (hkind.symm.trans hpath))
    rw [PathPattern.places, PathPattern.allOf, PathExpr.places] at hl
    obtain ⟨f, hf, hl⟩ := mem_termPlaces.mp hl
    have hplain := ht f hf
    obtain ⟨element, q⟩ := f
    cases element with
    | node f => simp [Factor.places, Element.places] at hl
    | edge pattern => simp [Factor.places, Element.places] at hl
    | group e mode name condition => exact hplain.elim
  have hbindable : ∃ later, (Program.compile (p.allOf t)).withPath? [] all u.walk.toPath = some later := by
    rw [Program.withPath?]
    split
    · next name hname =>
      rw [Bindings.bindPath?, hfree hname]
      exact ⟨_, rfl⟩
    · exact ⟨_, rfl⟩
  obtain ⟨later, hlater⟩ := hbindable
  refine ⟨⟨later, u.walk.toPath⟩, ?_, rfl⟩
  have hall : (Search.closeGroups? ⟨store, config, []⟩ (.compile (p.allOf t)) u.bindings).bind
      (fun all => (Program.compile (p.allOf t)).withPath? [] all u.walk.toPath) = some later := by
    rw [hclose]
    exact hlater
  exact (Search.solution?_eq _ _ _).trans (congrArg (Option.map fun all => (⟨all, u.walk.toPath⟩ : Solution)) hall)

/-- The paths of the results are those of the walks along the routes of the term. -/
theorem PathPattern.paths_routes (hg : g.Indexed) (hstore : env.store = g.store)
    (hmax : env.config.maxSteps = none) (hseed : env.seed = []) (ht : ∀ f ∈ t, f.IsPlain)
    (hvalid : (p.allOf t).toGraphPattern.Valid env.store env.config.strictCatalog [] kinds) :
    ∃ found, ((p.allOf t).toGraphPattern.matches env).map (·.1) = .ok found ∧
      (found.map (·.paths)).Perm
        (((termRoutes env.config.maxPathLength t).flatMap
          (Route.walks ⟨env, p.modeInForce, [], false⟩ env.config.maxPathLength)).map fun w =>
            [w.toPath]) := by
  set cap := env.config.maxPathLength
  obtain ⟨hquantifiers, hkinds, -, -⟩ := valid_allOf_iff.mp hvalid
  have hmatches := (p.allOf t).matches_ways env hmax rfl
  have hkindsSeed : env.seed.kinds = [] := by rw [hseed]; rfl
  rw [hkindsSeed, GraphPattern.validate_eq_ok_iff.mpr hvalid] at hmatches
  refine ⟨_, hmatches, ?_⟩
  have hpaths : ((((p.allOf t).ways env [] cap).filterMap
      (Stage.solution? env (.compile (p.allOf t)))).map (·.toMatch env.seed)).map (·.paths) =
      ((p.allOf t).ways env [] cap).map fun u => [u.walk.toPath] := by
    rw [List.map_map, List.map_filterMap, ← List.filterMap_eq_map]
    refine List.filterMap_congr fun u hu => ?_
    obtain ⟨x, hx, hpath⟩ := exists_solution hseed ht hkinds hu
    rw [hx, Option.map_some, Function.comp_apply, Solution.toMatch, hpath]
    rfl
  have hways : ((p.allOf t).ways env [] cap).Perm ((termRoutes cap t).flatMap fun r =>
      g.store.vertices.flatMap fun v =>
        r.ways ⟨env, p.modeInForce, [], false⟩ (.start v [] cap)) := by
    rw [ways_everywhere hg hstore]
    refine .trans (List.Perm.flatMap_left _ fun v _ => ?_) (flatMap_flatMap_perm _ _ _)
    rw [waysFrom, allOf, PathExpr.ways]
    exact termWays_routes ht rfl hquantifiers (Nat.le_refl cap)
  rw [hpaths]
  refine (hways.map _).trans (List.Perm.of_eq ?_)
  simp only [List.map_flatMap, Route.walks, hstore, List.map_map, Function.comp_def]

/-- **A pattern finds the same paths from its other end.** Take a term of node patterns and edge patterns,
which may be quantified, without WHERE clauses, and nothing bound before the match. If it is accepted, so
is the term from its end to its start with all edges mirrored, and its paths are those of the term, each
turned round. -/
theorem PathPattern.matches_reversed (p : PathPattern) (t : Term) (g : Graph) (config : MatchConfig)
    {found : List Match} (hg : g.Built) (hmax : config.maxSteps = none) (ht : ∀ f ∈ t, f.IsPlain)
    (h : ((p.allOf t).toGraphPattern.matches ⟨g.store, config, []⟩).map (·.1) = .ok found) :
    ∃ found', ((p.allOf t.reversed).toGraphPattern.matches ⟨g.store, config, []⟩).map (·.1) =
        .ok found' ∧
      (found'.map (·.paths)).Perm (found.map fun m => m.paths.map Path.reverse) := by
  set env : Env := ⟨g.store, config, []⟩ with henv
  obtain ⟨⟨kinds, hvalidate⟩, -⟩ := GraphPattern.mem_matches h
  have hvalid := GraphPattern.validate_eq_ok_iff.mp hvalidate
  obtain ⟨kinds', hvalid'⟩ := valid_reversed ht hvalid
  have ht' : ∀ f ∈ t.reversed, f.IsPlain := fun f hf => by
    obtain ⟨f', hf', rfl⟩ := Term.mem_reversed.mp hf
    exact Factor.isPlain_mirror (ht f' hf')
  obtain ⟨first, hfirst, hpaths⟩ := @paths_routes p t g env kinds hg.indexed rfl hmax rfl ht hvalid
  obtain ⟨found', hfound', hpaths'⟩ := @paths_routes p _ g env kinds' hg.indexed rfl hmax rfl ht' hvalid'
  obtain rfl : first = found := Except.ok.inj (hfirst.symm.trans h)
  refine ⟨found', hfound', hpaths'.trans ?_⟩
  have houtermost : Surroundings.IsOutermost ⟨env, p.modeInForce, [], false⟩ := ⟨rfl, rfl, rfl⟩
  have hwalks : ((termRoutes config.maxPathLength t.reversed).flatMap
      (Route.walks ⟨env, p.modeInForce, [], false⟩ config.maxPathLength)).Perm
      (((termRoutes config.maxPathLength t).flatMap
        (Route.walks ⟨env, p.modeInForce, [], false⟩ config.maxPathLength)).map Walk.reverse) := by
    refine ((termRoutes_reversed _ t).flatMap_right _).trans ?_
    rw [List.flatMap_map, List.map_flatMap]
    have hkinds := (valid_allOf_iff.mp hvalid).2.1
    exact List.Perm.flatMap_left _ fun r hr => Route.walks_reversed hg.indexed houtermost rfl
      (fun l hl => suits_of_mem_termRoutes ht hkinds hr hl) _
  refine (hwalks.map _).trans ?_
  have hturned := (hpaths.map (List.map Path.reverse)).symm
  simpa only [List.map_map, Function.comp_def, List.map_cons, List.map_nil, Walk.toPath_reverse]
    using hturned

/-- A path over an edge is found from both ends. -/
theorem matches_reversed_hop :
    let p : PathPattern := {}
    let node (name : String) : Factor := .mk (.node { name := some name }) none
    let edges (d : Direction) : Factor :=
      .mk (.edge { filler := { name := some "e" }, direction := d }) (some .oneOrMore)
    let t : Term := [node "a", edges .right, node "b"]
    let env : Env := ⟨Graph.hop.store, { maxPathLength := 1 }, []⟩
    let found : List Match := [⟨[("a", .vertex ⟨1⟩), ("e", .group [.edge ⟨1⟩]), ("b", .vertex ⟨2⟩)],
      [⟨[⟨1⟩, ⟨2⟩], [⟨1⟩]⟩]⟩]
    Graph.hop.Built ∧ (∀ f ∈ t, f.IsPlain) ∧ t.reversed = [node "b", edges .left, node "a"] ∧
      ((p.allOf t).toGraphPattern.matches env).map (·.1) = .ok found ∧
      ∃ found', ((p.allOf t.reversed).toGraphPattern.matches env).map (·.1) = .ok found' ∧
        (found'.map (·.paths)).Perm [[⟨[⟨2⟩, ⟨1⟩], [⟨1⟩]⟩]] := by
  intro p node edges t env found
  have ht : ∀ f ∈ t, f.IsPlain := by simp [t, node, edges, Factor.IsPlain]
  have hfound : ((p.allOf t).toGraphPattern.matches env).map (·.1) = .ok found := by
    have hways : (p.allOf t).ways env [] 1 =
        [⟨⟨⟨1⟩, [(⟨1⟩, ⟨2⟩)]⟩, [("a", .vertex ⟨1⟩), ("e", .group [.edge ⟨1⟩]), ("b", .vertex ⟨2⟩)], [],
          0⟩] := by cbv
    have hmatches := (p.allOf t).matches_ways env rfl rfl
    rw [show env.config.maxPathLength = 1 from rfl, hways] at hmatches
    exact hmatches.trans rfl
  exact ⟨Graph.built_hop, ht, rfl, hfound,
    p.matches_reversed t Graph.hop env.config Graph.built_hop rfl ht hfound⟩

end Results

end GraphPatterns
