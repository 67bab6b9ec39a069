/-
What group variables list. Nothing but repeated factors adds to a group, so a group is made of one list
for each repeated factor that a tour goes through and that declares the variable
(`PathExpr.lists_tours`). A repeated edge lists the edges it went over; a repeated part without
quantifiers and choices, in which the variable is declared once, lists one element of each repetition
(`Visit.Lists`). Where a variable is declared once, there is one such list, or none
(`GraphPattern.matches_list`).
-/
import GraphPatterns.Proofs.Repeats
import Mathlib.Data.List.Flatten

namespace GraphPatterns

open scoped List

/-! ## What a repeated factor lists -/

/-- A list is what a repeated factor that was gone through may add to the group of a variable. -/
structure Visit.Lists (name : String) (w : Walk) (v : Visit) (ys : List ElementId) : Prop where
  stop_le : v.stop ≤ w.length
  laps : v.element.isLinear = true → v.names.count name = 1 → w.toPath.ListsLaps v.laps ys
  run : ∀ pattern, v.element = .edge pattern →
    (v.run w.toPath).length = v.laps.length ∧ ys = (v.run w.toPath).map .edge

theorem Visit.Lists.mono {name : String} {w u : Walk} {v : Visit} {ys : List ElementId}
    (h : v.Lists name w ys) (hw : w.Begins u) : v.Lists name u ys := by
  have hrun : v.run u.toPath = v.run w.toPath := by
    have hstop : v.stop ≤ w.edges.length := by
      rw [Walk.length_edges]
      exact h.stop_le
    simp only [Visit.run, Walk.toPath]
    rw [hw.edges, List.take_append_of_le_length hstop]
  refine ⟨h.stop_le.trans hw.length_le, fun hlinear hone => (h.laps hlinear hone).mono hw.elements, ?_⟩
  rw [hrun]
  exact h.run

section Visits

variable {name : String} {e : Element} {q : Quantifier} {c : Surroundings} {s u : Stage} {laps : List Lap}

/-- In a part without quantifiers and choices that declares the variable once, what is added are elements
of the repetitions. -/
theorem Laps.listsLaps (hlaps : Laps (e.ways { c with repeated := true }) s laps u)
    (hlinear : e.isLinear = true) (hname : DeclaresOnce name (e.places true))
    (hs : s.takenBy? (some name) = none) {xs ys : List ElementId} (hxs : s.bindings.HoldsGroup name xs)
    (hys : u.bindings.HoldsGroup name (xs ++ ys)) : u.walk.toPath.ListsLaps laps ys := by
  obtain ⟨zs, hzs, hlists⟩ := hlaps.takesOne
    (fun s u hu => e.ways_of_moves (Stage.begins_moves _) _ s (.refl _) u hu)
    (fun s u hu =>
      e.ways_of_moves (collects_moves hname.collects) { c with repeated := true } s (.refl _) u hu)
    (fun s hs u hu => e.takesOne_ways { c with repeated := true } s hlinear rfl hname hs u hu) hs hxs
  rwa [← List.append_cancel_left (hzs.unique hys)]

/-- What a repeated edge adds are the edges that it goes over, one of each repetition. -/
theorem Laps.listsRun {pattern : EdgePattern}
    (hlaps : Laps ((Element.edge pattern).ways { c with repeated := true }) s laps u)
    (hu : u ∈ (Factor.mk (.edge pattern) (some q)).ways c s)
    (hname : DeclaresOnce name ((Element.edge pattern).places true))
    (hs : s.takenBy? (some name) = none) {xs ys : List ElementId} (hxs : s.bindings.HoldsGroup name xs)
    (hys : u.bindings.HoldsGroup name (xs ++ ys)) :
    (u.walk.edges.drop s.walk.length).length = laps.length ∧
      ys = (u.walk.edges.drop s.walk.length).map .edge := by
  have hedges : ∀ l ∈ (Element.edge pattern).places true, l.name? = some name →
      ∃ pattern, l = .edge pattern true := fun l hl _ => by
    rw [Element.places] at hl
    exact ⟨pattern, List.mem_singleton.mp hl⟩
  have hplaces : (Factor.mk (.edge pattern) (some q)).places c.repeated ⊆
      (Element.edge pattern).places true := by
    rw [Factor.places, Option.isSome_some, Bool.or_true]
    exact .refl _
  obtain ⟨es, hes, hys'⟩ :=
    (Factor.ways_of_moves (listsEdges_moves hedges) _ c s hplaces u hu).group xs hxs
  obtain rfl : ys = es.map .edge := List.append_cancel_left (hys.unique hys')
  have hcount : (u.walk.edges.drop s.walk.length).length = laps.length := by
    rw [List.length_drop, Walk.length_edges, hlaps.length_eq fun _ _ => Element.length_edge_ways,
      Nat.add_sub_cancel_left]
  -- They are edges of the run, in its order, and as many.
  refine ⟨hcount, congrArg _ (hes.eq_of_length ?_)⟩
  rw [hcount, (hlaps.listsLaps rfl hname hs hxs hys).length_eq, List.length_map]

/-- **What a repeated factor adds to a group.** A factor that does not declare the variable adds
nothing. -/
theorem Laps.lists (hlaps : Laps (e.ways { c with repeated := true }) s laps u)
    (hu : u ∈ (Factor.mk e (some q)).ways c s) (hcollects : ∀ l ∈ e.places true, l.Collects name)
    (hs : s.takenBy? (some name) = none) {xs : List ElementId} (hxs : s.bindings.HoldsGroup name xs) :
    ∃ ys, u.bindings.HoldsGroup name (xs ++ ys) ∧
      let v : Visit := ⟨⟨e, q⟩, s.walk.length, u.walk.length, laps⟩
      (name ∈ v.names → v.Lists name u.walk ys) ∧ (name ∉ v.names → ys = []) := by
  have hplaces : (Factor.mk e (some q)).places c.repeated ⊆ e.places true := by
    rw [Factor.places, Option.isSome_some, Bool.or_true]
    exact .refl _
  obtain ⟨ys, hys, -, hnone⟩ :=
    (Factor.ways_of_moves (collects_moves hcollects) _ c s hplaces u hu).group xs hxs
  refine ⟨ys, hys, fun hname => ⟨Nat.le_refl _, fun hlinear hone => ?_, ?_⟩, fun hname => ?_⟩
  · exact hlaps.listsLaps hlinear ⟨hcollects, hone⟩ hs hxs hys
  · rintro pattern rfl
    have hown : pattern.filler.name = some name := by
      simpa [Repeated.names_edge] using hname
    have hone : (Repeated.names ⟨.edge pattern, q⟩).count name = 1 := by
      simp [Repeated.names_edge, hown]
    have hrun : Visit.run ⟨⟨.edge pattern, q⟩, s.walk.length, u.walk.length, laps⟩ u.walk.toPath =
        u.walk.edges.drop s.walk.length :=
      congrArg (List.drop _) (List.take_of_length_le (Nat.le_of_eq u.walk.length_edges))
    rw [hrun]
    exact hlaps.listsRun hu ⟨hcollects, hone⟩ hs hxs hys
  · exact hnone fun l hl hl' => hname (Repeated.mem_names hl hl')

end Visits

/-! ## What a tour lists -/

/-- A tour adds to the group of a variable one list for each repeated factor that it goes through and that
declares the variable. -/
structure Tour.Lists (name : String) (s : Stage) (t : Tour) : Prop where
  taken : t.stage.taken = s.taken
  begins : s.walk.Begins t.stage.walk
  group : ∀ xs, s.bindings.HoldsGroup name xs → ∃ own : List (List ElementId),
    t.stage.bindings.HoldsGroup name (xs ++ own.flatten) ∧
      List.Forall₂ (Visit.Lists name t.stage.walk) (t.visits.filter fun v => name ∈ v.names) own

namespace Tour.Lists

variable {name : String} {s : Stage}

theorem refl (name : String) (s : Stage) : Lists name s ⟨s, []⟩ :=
  ⟨rfl, .refl s.walk, fun xs h => ⟨[], (List.append_nil xs).symm ▸ h, .nil⟩⟩

theorem trans {t₁ t₂ : Tour} (h₁ : t₁.Lists name s) (h₂ : t₂.Lists name t₁.stage) :
    Lists name s ⟨t₂.stage, t₁.visits ++ t₂.visits⟩ := by
  refine ⟨h₂.taken.trans h₁.taken, h₁.begins.trans h₂.begins, fun xs h => ?_⟩
  obtain ⟨own₁, hown₁, hlists₁⟩ := h₁.group xs h
  obtain ⟨own₂, hown₂, hlists₂⟩ := h₂.group _ hown₁
  refine ⟨own₁ ++ own₂, by simpa using hown₂, ?_⟩
  rw [List.filter_append]
  exact List.rel_append (hlists₁.imp fun _ _ hv => hv.mono h₂.begins) hlists₂

theorem choice {terms : List (List Factor)} {c : Surroundings} {t : Tour}
    (hterms : t ∈ choiceTours terms c s → t.Lists name s)
    (ht : t ∈ if terms.isEmpty then [⟨s, []⟩] else choiceTours terms c s) : t.Lists name s := by
  split at ht
  · obtain rfl := List.mem_singleton.mp ht
    exact refl name s
  · exact hterms ht

theorem plain {e : Element} {c : Surroundings} (hc : c.repeated = false)
    (hcollects : ∀ l ∈ e.places false, l.Collects name)
    (hnone : ∀ l ∈ e.places false, l.name? ≠ some name) {u : Stage} (hu : u ∈ e.ways c s) :
    Lists name s ⟨u, []⟩ := by
  have hplaces : e.places c.repeated ⊆ e.places false := by
    rw [hc]
    exact .refl _
  refine ⟨e.ways_of_moves (Stage.taken_outside_moves _) c s hplaces u hu hc,
    e.ways_of_moves (Stage.begins_moves _) c s hplaces u hu, fun xs h => ⟨[], ?_, .nil⟩⟩
  rw [List.flatten_nil, List.append_nil]
  exact (e.ways_of_moves (collects_moves hcollects) c s hplaces u hu).holdsGroup hnone h

theorem visit {e : Element} {q : Quantifier} {c : Surroundings} (hc : c.repeated = false)
    (hcollects : ∀ l ∈ e.places true, l.Collects name) (hs : s.takenBy? (some name) = none) {t : Tour}
    (ht : t ∈ (Factor.mk e (some q)).tours c s) : t.Lists name s := by
  have hu : t.stage ∈ (Factor.mk e (some q)).ways c s := by
    rw [← Factor.stages_tours]
    exact List.mem_map_of_mem ht
  refine ⟨Factor.ways_of_moves (Stage.taken_outside_moves _) _ c s (.refl _) _ hu hc,
    Factor.ways_of_moves (Stage.begins_moves _) _ c s (.refl _) _ hu, fun xs h => ?_⟩
  rw [Factor.tours] at ht
  obtain ⟨r, hr, rfl⟩ := List.mem_map.mp ht
  obtain ⟨ys, hys, hlists, hnone⟩ := (laps_of_mem hr).1.lists hu hcollects hs h
  by_cases hname : name ∈ Repeated.names ⟨e, q⟩
  · refine ⟨[ys], by simpa using hys, ?_⟩
    rw [List.filter_cons_of_pos (by simpa using hname)]
    exact .cons (hlists hname) .nil
  · refine ⟨[], by simpa [hnone hname] using hys, ?_⟩
    rw [List.filter_cons_of_neg (by simpa using hname)]
    exact .nil

end Tour.Lists

theorem Place.Collects.ne_node {name : String} {f : NodePattern}
    (h : (Place.node f false).Collects name) : ∀ l ∈ [Place.node f false], l.name? ≠ some name :=
  fun l hl hname => by
    obtain rfl := List.mem_singleton.mp hl
    cases h.node hname

/-- Outside of quantifiers a variable for groups is not declared at an edge. -/
theorem Place.Collects.ne_edge {name : String} {pattern : EdgePattern}
    (h : (Place.edge pattern false).Collects name) :
    ∀ l ∈ [Place.edge pattern false], l.name? ≠ some name := fun l hl hname => by
  obtain rfl := List.mem_singleton.mp hl
  cases h.edge hname

mutual

/-- **What a tour adds to a group.** -/
theorem PathExpr.lists_tours {name : String} : ∀ (x : PathExpr) (c : Surroundings) (s : Stage),
    c.repeated = false → (∀ l ∈ x.places false, l.Collects name) → s.takenBy? (some name) = none →
    ∀ t ∈ x.tours c s, t.Lists name s
  | .term factors, c, s, hc, hcollects, hs, t, ht => by
    rw [PathExpr.places] at hcollects
    rw [PathExpr.tours] at ht
    exact term_lists_tours factors c s hc hcollects hs t ht
  | .union terms, c, s, hc, hcollects, hs, t, ht => by
    rw [PathExpr.places] at hcollects
    rw [PathExpr.tours] at ht
    exact .choice (choice_lists_tours terms c s hc hcollects hs t) ht
  | .multiset terms, c, s, hc, hcollects, hs, t, ht => by
    rw [PathExpr.places] at hcollects
    rw [PathExpr.tours] at ht
    exact .choice (choice_lists_tours terms c s hc hcollects hs t) ht

theorem choice_lists_tours {name : String} : ∀ (terms : List (List Factor)) (c : Surroundings) (s : Stage),
    c.repeated = false → (∀ l ∈ choicePlaces false terms, l.Collects name) →
    s.takenBy? (some name) = none → ∀ t ∈ choiceTours terms c s, t.Lists name s
  | [], c, s, _, _, _, t, ht => by
    rw [choiceTours] at ht
    cases ht
  | term :: rest, c, s, hc, hcollects, hs, t, ht => by
    rw [choicePlaces, List.forall_mem_append] at hcollects
    rw [choiceTours] at ht
    rcases List.mem_append.mp ht with ht | ht
    · exact term_lists_tours term c s hc hcollects.1 hs t ht
    · exact choice_lists_tours rest c s hc hcollects.2 hs t ht

theorem term_lists_tours {name : String} : ∀ (factors : List Factor) (c : Surroundings) (s : Stage),
    c.repeated = false → (∀ l ∈ termPlaces false factors, l.Collects name) →
    s.takenBy? (some name) = none → ∀ t ∈ termTours factors c s, t.Lists name s
  | [], c, s, _, _, _, t, ht => by
    rw [termTours] at ht
    obtain rfl := List.mem_singleton.mp ht
    exact .refl name s
  | f :: rest, c, s, hc, hcollects, hs, t, ht => by
    rw [termPlaces, List.forall_mem_append] at hcollects
    rw [termTours] at ht
    obtain ⟨t₁, h₁, ht⟩ := List.mem_flatMap.mp ht
    obtain ⟨t₂, h₂, rfl⟩ := List.mem_map.mp ht
    have hfirst := f.lists_tours c s hc hcollects.1 hs t₁ h₁
    have hs' : t₁.stage.takenBy? (some name) = none := by rwa [Stage.takenBy?, hfirst.taken]
    exact hfirst.trans (term_lists_tours rest c t₁.stage hc hcollects.2 hs' t₂ h₂)

theorem Factor.lists_tours {name : String} : ∀ (f : Factor) (c : Surroundings) (s : Stage),
    c.repeated = false → (∀ l ∈ f.places false, l.Collects name) → s.takenBy? (some name) = none →
    ∀ t ∈ f.tours c s, t.Lists name s
  | .mk e none, c, s, hc, hcollects, hs, t, ht => by
    rw [Factor.places] at hcollects
    rw [Factor.tours] at ht
    exact e.lists_tours c s hc hcollects hs t ht
  | .mk e (some q), c, s, hc, hcollects, hs, t, ht => by
    rw [Factor.places] at hcollects
    exact .visit hc hcollects hs ht

theorem Element.lists_tours {name : String} : ∀ (e : Element) (c : Surroundings) (s : Stage),
    c.repeated = false → (∀ l ∈ e.places false, l.Collects name) → s.takenBy? (some name) = none →
    ∀ t ∈ e.tours c s, t.Lists name s
  | .node f, c, s, hc, hcollects, _, t, ht => by
    rw [Element.tours] at ht
    obtain ⟨u, hu, rfl⟩ := List.mem_map.mp ht
    refine .plain hc hcollects ?_ hu
    rw [Element.places] at hcollects ⊢
    exact (hcollects _ List.mem_cons_self).ne_node
  | .edge pattern, c, s, hc, hcollects, _, t, ht => by
    rw [Element.tours] at ht
    obtain ⟨u, hu, rfl⟩ := List.mem_map.mp ht
    refine .plain hc hcollects ?_ hu
    rw [Element.places] at hcollects ⊢
    exact (hcollects _ List.mem_cons_self).ne_edge
  | .group own mode body condition, c, s, hc, hcollects, hs, t, ht => by
    rw [Element.places, List.forall_mem_cons] at hcollects
    rw [Element.tours] at ht
    obtain ⟨t, ht', hu⟩ := List.mem_flatMap.mp ht
    have hinside := body.lists_tours { c with frames := ⟨mode.getD .walk, s.walk.length⟩ :: c.frames } s
      hc hcollects.2 hs t ht'
    split at hu
    · next bindings hclose =>
      obtain rfl := List.mem_singleton.mp hu
      refine ⟨hinside.taken, hinside.begins, fun xs h => ?_⟩
      obtain ⟨lists, hlists, hvisits⟩ := hinside.group xs h
      exact ⟨lists, hlists.closeGroup? hclose hcollects.1.group, hvisits⟩
    · cases hu

end

/-! ## Variables that are declared once -/

/-- A tour goes through a repeated factor once. -/
def Tour.GoesOnce (t : Tour) (r : Repeated) (v : Visit) : Prop :=
  ∀ u : Visit, u ∈ t.visits ∧ u.toRepeated = r ↔ u = v

/-- Of the repeated factors that a tour goes through no more than one declares a variable, if it is
declared once. -/
theorem Tour.Accounts.count_le {least : List Repeated} {p : PathPattern} {t : Tour} {name : String}
    (h : t.Accounts least (p.expr.repeats true)) (hone : p.declaredNames.count name = 1) :
    (t.visits.flatMap fun v => v.names).count name ≤ 1 := by
  rw [← hone, ← List.flatMap_map]
  exact ((h.most.flatMap Repeated.names).count_le _).trans (p.count_repeats name)

/-- **What a variable that is declared once lists.** The tour goes through the repeated factor that
declares it and adds what this lists, or goes elsewhere and adds nothing. -/
theorem Tour.Lists.once {p : PathPattern} {t : Tour} {name : String} {s : Stage}
    (hlists : t.Lists name s) (haccounts : t.Accounts (p.expr.repeats false) (p.expr.repeats true))
    (hone : p.declaredNames.count name = 1) {r : Repeated} (hr : r ∈ p.expr.repeats true)
    (hname : name ∈ r.names) (hs : s.bindings.HoldsGroup name []) :
    (∃ v ys, t.GoesOnce r v ∧ v.IsWithin ∧ v.Lists name t.stage.walk ys ∧
        t.stage.bindings.HoldsGroup name ys) ∨
      (∀ v ∈ t.visits, v.toRepeated ≠ r) ∧ t.stage.bindings.HoldsGroup name [] := by
  obtain ⟨own, hown, hvisits⟩ := hlists.group [] hs
  rw [List.nil_append] at hown
  have hcount := haccounts.count_le hone
  have hmem {v : Visit} (hv : v ∈ t.visits) (hv' : name ∈ v.names) :
      v ∈ t.visits.filter fun v => name ∈ v.names := List.mem_filter.mpr ⟨hv, by simpa using hv'⟩
  rcases filter_names hcount with hfilter | ⟨v, hfilter⟩
  · rw [hfilter, List.forall₂_nil_left_iff] at hvisits
    subst hvisits
    refine .inr ⟨fun v hv heq => ?_, hown⟩
    have hnone := hmem hv (heq ▸ hname)
    rw [hfilter] at hnone
    cases hnone
  · rw [hfilter] at hvisits
    obtain ⟨ys, _, hys, hnil, rfl⟩ := List.forall₂_cons_left_iff.mp hvisits
    obtain rfl := List.forall₂_nil_left_iff.mp hnil
    rw [List.flatten_singleton] at hown
    obtain ⟨hv, hv'⟩ := List.mem_filter.mp (hfilter ▸ List.mem_singleton_self v)
    have hv' : name ∈ v.names := by simpa using hv'
    refine .inl ⟨v, ys, fun u => ⟨fun ⟨hu, heq⟩ => ?_, ?_⟩, haccounts.within v hv, hys, hown⟩
    · exact eq_of_names hcount hu hv (heq ▸ hname) hv'
    · rintro rfl
      exact ⟨hv, eq_of_names ((p.count_repeats name).trans (Nat.le_of_eq hone))
        (haccounts.most.subset (List.mem_map_of_mem hv)) hr hv' hname⟩

/-! ## Matches -/

/-- What the group variables of a path pattern list of a tour. -/
structure PathPattern.Lists (p : PathPattern) (t : Tour) (bindings : Bindings) : Prop where
  /-- A variable for edges lists edges of the path, in their order. -/
  edges : ∀ l ∈ p.places, ∀ name, l.groupVariable? = some (name, .edgeGroup) →
    ∃ es, es <+ t.stage.walk.edges ∧ bindings.get? name = some (.group (es.map .edge))
  /-- One that is declared once, by a repeated edge, lists the edges that this goes over, as many as it
  has repetitions, or nothing where it stands in a choice and another term is taken. -/
  run : ∀ pattern q, ⟨.edge pattern, q⟩ ∈ p.expr.repeats true →
    ∀ name, pattern.filler.name = some name → p.declaredNames.count name = 1 →
    (∃ v : Visit, t.GoesOnce ⟨.edge pattern, q⟩ v ∧ v.IsWithin ∧
      (v.run t.stage.walk.toPath).length = v.laps.length ∧
      bindings.get? name = some (.group ((v.run t.stage.walk.toPath).map .edge))) ∨
    (∀ v ∈ t.visits, v.toRepeated ≠ ⟨.edge pattern, q⟩) ∧ bindings.get? name = some (.group [])
  /-- One that is declared once, in a repeated part without quantifiers and choices that does not stand
  in a choice itself, lists one element of each repetition. -/
  laps : ∀ r ∈ p.expr.repeats false, r.element.isLinear = true → ∀ l ∈ r.places, ∀ name kind,
    l.groupVariable? = some (name, kind) → p.declaredNames.count name = 1 →
    ∃ v xs, t.GoesOnce r v ∧ v.IsWithin ∧ t.stage.walk.toPath.ListsLaps v.laps xs ∧
      bindings.get? name = some (.group xs)

theorem PathPattern.Lists.congr {p : PathPattern} {t : Tour} {bindings bindings' : Bindings}
    (h : p.Lists t bindings) (hsame : ∀ name, bindings'.get? name = bindings.get? name) :
    p.Lists t bindings' where
  edges := by
    simpa only [hsame] using h.edges
  run := by
    simpa only [hsame] using h.run
  laps := by
    simpa only [hsame] using h.laps

/-- Where a variable stands for a list of edges at one place, every place that has it is an edge under a
quantifier. -/
theorem PathPattern.edge_of_validate {g : GraphPattern} {store : Store} {strict : Bool}
    {bound kinds : VariableKinds} (h : g.validate store strict bound = .ok kinds) {p : PathPattern}
    (hp : p ∈ g.paths) {l : Place} (hl : l ∈ p.places) {name : String}
    (hname : l.groupVariable? = some (name, .edgeGroup)) :
    ∀ l' ∈ p.places, l'.name? = some name → ∃ pattern, l' = .edge pattern true := by
  intro l' hl' hname'
  have hkinds := g.kind_of_validate h
  have hsubset := PathPattern.declarations_subset hp
  have hkind := VariableKinds.kind_of_place hkinds hsubset hl (Place.name?_of_groupVariable? hname)
  have hkind' := VariableKinds.kind_of_place hkinds hsubset hl' hname'
  exact Place.eq_edge_of_kind
    ((Option.some.inj (hkind'.symm.trans hkind)).trans (Place.kind_of_groupVariable? hname))

section Solutions

variable {g : GraphPattern} {store : Store} {strict : Bool} {bound kinds : VariableKinds}
  (hvalid : g.validate store strict bound = .ok kinds) {p : PathPattern} (hp : p ∈ g.paths) {env : Env}
  {t : Tour} {x : Solution} (hx : t.stage.solution? env (.compile p) = some x)

include hvalid hp hx

/-- What a variable lists at the end of a tour, the solution of the tour binds it to. -/
theorem PathPattern.get?_solution {l : Place} (hl : l ∈ p.places) {name : String} {kind : VariableKind}
    (hname : l.groupVariable? = some (name, kind)) {xs : List ElementId}
    (h : t.stage.bindings.HoldsGroup name xs) : x.bindings.get? name = some (.group xs) :=
  (Search.holdsGroup_solution? hx (groups_of_validate hvalid hp hp hl hname) h).2
    (mem_declaredNames hl (Place.name?_of_groupVariable? hname))

variable {limit : Nat} (ht : t ∈ p.tours env [] limit)

include ht

/-- A variable for edges lists edges of the path. -/
theorem PathPattern.edges_solution {l : Place} (hl : l ∈ p.places) {name : String}
    (hname : l.groupVariable? = some (name, .edgeGroup)) :
    ∃ es, es <+ t.stage.walk.edges ∧ x.bindings.get? name = some (.group (es.map .edge)) := by
  obtain ⟨v, -, hv⟩ := List.mem_flatMap.mp ht
  have hu : t.stage ∈ p.expr.ways ⟨env, p.modeInForce, [], false⟩ (.start v [] limit) := by
    rw [← PathExpr.stages_tours]
    exact List.mem_map_of_mem hv
  have hmoves := p.expr.ways_of_moves (listsEdges_moves (edge_of_validate hvalid hp hl hname)) _ _
    (.refl _) _ hu
  obtain ⟨es, hes, hholds⟩ := hmoves.group [] (.inr ⟨rfl, rfl⟩)
  exact ⟨es, hes, get?_solution hvalid hp hx hl hname hholds⟩

/-- A variable that is declared once, in a repeated factor, lists what this lists. -/
theorem PathPattern.once_solution {r : Repeated} (hr : r ∈ p.expr.repeats true) {l : Place}
    (hl : l ∈ r.places) {name : String} {kind : VariableKind}
    (hname : l.groupVariable? = some (name, kind)) (hone : p.declaredNames.count name = 1) :
    (∃ v ys, t.GoesOnce r v ∧ v.IsWithin ∧ v.Lists name t.stage.walk ys ∧
        x.bindings.get? name = some (.group ys)) ∨
      (∀ v ∈ t.visits, v.toRepeated ≠ r) ∧ x.bindings.get? name = some (.group []) := by
  obtain ⟨v, -, hv⟩ := List.mem_flatMap.mp ht
  have hl' := mem_places hr hl
  have hgroups := (groups_of_validate hvalid hp hp hl' hname).2
  have haccounts := p.expr.accounts_tours _ _ (fun q hq => g.isOrdered_of_validate hvalid hp hq) t hv
  have hlists := p.expr.lists_tours _ _ rfl hgroups rfl t hv
  have hnames := Repeated.mem_names hl (Place.name?_of_groupVariable? hname)
  rcases hlists.once haccounts hone hr hnames (.inr ⟨rfl, rfl⟩) with
    ⟨v, ys, honce, hwithin, hlists, h⟩ | ⟨hnone, h⟩
  · exact .inl ⟨v, ys, honce, hwithin, hlists, get?_solution hvalid hp hx hl' hname h⟩
  · exact .inr ⟨hnone, get?_solution hvalid hp hx hl' hname h⟩

/-- **What the solution of a tour lists**, in a pattern that makes sense. -/
theorem PathPattern.lists_solution : p.Lists t x.bindings := by
  refine ⟨fun l hl name hname => edges_solution hvalid hp hx ht hl hname,
    fun pattern q hr name hname hone => ?_, fun r hr hlinear l hl name kind hname hone => ?_⟩
  · have hplace : Place.edge pattern true ∈ Repeated.places ⟨.edge pattern, q⟩ := by
      simp [Repeated.places, Element.places]
    have hgroup : (Place.edge pattern true).groupVariable? = some (name, .edgeGroup) := by
      rw [Place.groupVariable?, hname]
      rfl
    refine (once_solution hvalid hp hx ht hr hplace hgroup hone).imp_left ?_
    rintro ⟨v, ys, honce, hwithin, hlists, hget⟩
    have helement : v.element = .edge pattern := congrArg Repeated.element ((honce v).mpr rfl).2
    obtain ⟨hlength, rfl⟩ := hlists.run pattern helement
    exact ⟨v, honce, hwithin, hlength, hget⟩
  · -- A tour leaves out no repeated factor that does not stand in a choice.
    obtain ⟨v, -, hv⟩ := List.mem_flatMap.mp ht
    have haccounts := p.expr.accounts_tours _ _ (fun q hq => g.isOrdered_of_validate hvalid hp hq) t hv
    have hmem : r ∈ t.visits.map Visit.toRepeated := haccounts.least.subset hr
    have hr' : r ∈ p.expr.repeats true := haccounts.most.subset hmem
    rcases once_solution hvalid hp hx ht hr' hl hname hone with
      ⟨v, ys, honce, hwithin, hlists, hget⟩ | ⟨hnone, -⟩
    · obtain rfl := ((honce v).mpr rfl).2
      have hnames := Repeated.mem_names hl (Place.name?_of_groupVariable? hname)
      exact ⟨v, ys, honce, hwithin, hlists.laps hlinear (count_names hr' hnames hone), hget⟩
    · obtain ⟨v, hv, heq⟩ := List.mem_map.mp hmem
      exact absurd heq (hnone v hv)

end Solutions

/-- **Group variables list the tour of a match.** Every match of a single path pattern that starts with
nothing bound is the solution of a tour and binds the group variables to what they list of it. -/
theorem GraphPattern.matches_list (p : PathPattern) (mode : Option MatchMode) (condition : Option Expr)
    (g : Graph) (config : MatchConfig) {found : List Match} (hg : g.Built)
    (h : (GraphPattern.matches { mode := mode, paths := [p], condition := condition }
      ⟨g.store, config, []⟩).map (·.1) = .ok found) :
    ∀ m ∈ found, ∃ t ∈ p.tours (Env.withSteps ⟨g.store, config, []⟩ none) [] config.maxPathLength,
      ∃ x, t.stage.solution? (Env.withSteps ⟨g.store, config, []⟩ none) (.compile p) = some x ∧
        m = x.toMatch [] ∧ m.paths = [t.stage.walk.toPath] ∧ p.Lists t m.bindings := by
  obtain ⟨⟨kinds, hvalid⟩, hfound⟩ := mem_matches h
  intro m hm
  obtain ⟨xs, last, hchain, rfl, -⟩ := hfound m hm
  have hnodup : last.keys.Nodup := (hchain.growsTo hg.indexed rfl rfl).nodup List.nodup_nil
  cases hchain with
  | @cons _ _ _ _ x xs hx hrest =>
    cases hrest
    have hmatched := Program.mem_matched hg.indexed rfl rfl hx
    rw [p.matched_ways, ← p.stages_tours, List.filterMap_map] at hmatched
    obtain ⟨t, ht, hx⟩ := List.mem_filterMap.mp hmatched
    have hlists := PathPattern.lists_solution hvalid List.mem_cons_self hx ht
    have hsame (name : String) : Assoc.get? (Join.combine [] x.bindings) name = x.bindings.get? name :=
      (Join.get?_combine hnodup name).trans Option.or_none
    refine ⟨t, ht, x, hx, rfl, congrArg (· :: []) (Search.solution?_path hx), hlists.congr hsame⟩

/-- Over the one edge the repeated edge lists it, and it is repeated once. -/
theorem matches_list_hop :
    let p : PathPattern := .collectedHop
    let env : Env := ⟨Graph.hop.store, { maxPathLength := 1 }, []⟩
    let path : Path := ⟨[⟨1⟩, ⟨2⟩], [⟨1⟩]⟩
    let r : Repeated :=
      ⟨.edge { filler := { name := some "e" }, direction := .right }, .exactly 1⟩
    Graph.hop.Built ∧ p.declaredNames.count "e" = 1 ∧
      (p.toGraphPattern.matches env).map (·.1) = .ok [⟨[("e", .group [.edge ⟨1⟩])], [path]⟩] ∧
      ∃ t ∈ p.tours (env.withSteps none) [] 1, ∃ v, t.GoesOnce r v ∧ v.run path = [⟨1⟩] ∧
        v.laps.length = 1 := by
  intro p env path r
  have hone : p.declaredNames.count "e" = 1 := rfl
  have hvalid : p.toGraphPattern.validate env.store true [] = .ok [("e", .edgeGroup)] := rfl
  have hfound := p.matches_single env rfl
  rw [solutions_collectedHop [] [.edge ⟨1⟩] rfl] at hfound
  replace hfound := hfound.trans (congrArg (Except.map _) hvalid)
  refine ⟨Graph.built_hop, hone, hfound, ?_⟩
  obtain ⟨t, ht, x, -, -, hpath, hlists⟩ := GraphPattern.matches_list p none none Graph.hop
    { maxPathLength := 1 } Graph.built_hop hfound _ (List.mem_singleton_self _)
  have hr : r ∈ p.expr.repeats true := by
    simp [p, r, PathPattern.collectedHop, PathExpr.repeats, termRepeats, Factor.repeats, Element.repeats]
  have hwalk : t.stage.walk.toPath = path := (List.cons.inj hpath).1.symm
  refine ⟨t, ht, ?_⟩
  rcases hlists.run _ _ hr "e" rfl hone with ⟨v, honce, -, hlength, hget⟩ | ⟨-, hget⟩
  · rw [hwalk] at hlength hget
    have hrun : v.run path = [⟨1⟩] := by
      have hedges : [ElementId.edge ⟨1⟩] = (v.run path).map .edge :=
        Bound.group.inj (Option.some.inj hget)
      exact List.map_injective_iff.mpr (fun _ _ h => ElementId.edge.inj h) hedges.symm
    exact ⟨v, honce, hrun, by rw [← hlength, hrun]; rfl⟩
  · cases Bound.group.inj (Option.some.inj hget)

end GraphPatterns
