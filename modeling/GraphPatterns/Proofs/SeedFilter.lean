/-
A seed is a filter. A search that has bindings in its seed looks at them early: when it chooses its start
vertices, when it tests an element and when it binds a path; only groups are compared at the end. What
it gives up on the way could not have come to agree with the seed, so without WHERE clauses a path
pattern finds, with a seed, those of its matches that agree with the seed, in order
(`PathPattern.matches_seeded`).
-/
import GraphPatterns.Proofs.KeptSeed
import GraphPatterns.Proofs.SeededBindings
import GraphPatterns.Proofs.Sifting
import GraphPatterns.Proofs.Starts
import GraphPatterns.Proofs.Validity

namespace GraphPatterns

/-! ## Moves -/

section Moves

variable {store : Store} {config : MatchConfig} {seed : Bindings} {ds : List Declaration}
  {kinds : VariableKinds} {p : PathPattern}

/-- Whether what is bound agrees with a seed, groups left out. -/
def PathPattern.fits (p : PathPattern) (seed own : Bindings) : Bool :=
  decide (Bindings.AgreesOutside (Place.groupNames p.places) seed own)

theorem PathPattern.fits_of_lasts {own later : Bindings}
    (h : Bindings.Lasts (Place.groupNames p.places) own later) (hown : p.fits seed own = false) :
    p.fits seed later = false :=
  decide_eq_false fun hlater => of_decide_eq_false hown (h.agreesOutside hlater)

/-- The variable of a filler is not left to the seed, and under a quantifier it is one for a group. -/
theorem PathPattern.name_of_filler? (seed : Bindings)
    (hds : VariableKinds.ofDeclarations ds = .ok kinds)
    (hp : p.declarations ⊆ ds) {l : Place} (hl : l ∈ p.places) {f : Filler} {repeated : Bool}
    (hf : l.filler? = some (f, repeated)) {name : String} (hname : f.name = some name) :
    Bindings.hides kinds seed name = false ∧
      (name ∈ Place.groupNames p.places ↔ repeated = true) := by
  have hkind := VariableKinds.kind_of_place hds hp hl ((Place.name?_of_filler? hf).trans hname)
  have hfiller : l.kind ≠ .path ∧ l.kind.isGroup = repeated := by
    cases l with
    | node f' repeated' =>
      cases hf
      cases repeated <;> exact ⟨nofun, rfl⟩
    | edge pattern repeated' =>
      cases hf
      cases repeated <;> exact ⟨nofun, rfl⟩
    | group _ _ _ _ => cases hf
  refine ⟨Bindings.hides_of_kind hkind hfiller.1, fun hgroup => ?_, fun hrepeated => ?_⟩
  · obtain ⟨kind, hkind', hisGroup⟩ := VariableKinds.kind_of_groupName hds hp hgroup
    rw [hkind'] at hkind
    rw [← hfiller.2, ← Option.some.inj hkind, hisGroup]
  · exact Place.mem_groupNames_of_filler? hl (hrepeated ▸ hf) hname

/-- What a search with a seed binds is what one without it binds, as far as it is not left to the seed. -/
theorem Stage.bind_hide (hds : VariableKinds.ofDeclarations ds = .ok kinds) (hp : p.declarations ⊆ ds)
    (s : Stage) {l : Place} (hl : l ∈ p.places) {f : Filler} {repeated : Bool}
    (hf : l.filler? = some (f, repeated)) (x : ElementId) :
    (s.rebind (Bindings.hide kinds seed)).bind f.name repeated x =
      (s.bind f.name repeated x).rebind (Bindings.hide kinds seed) := by
  have hshown : ∀ own, f.name = some own → Bindings.hides kinds seed own = false := fun _ hname =>
    (PathPattern.name_of_filler? seed hds hp hl hf hname).1
  exact s.bind_rebind x (fun own hname _ => Bindings.hide_insertNew s.bindings (hshown own hname) _)
    fun own hname _ => Bindings.hide_collect s.bindings (hshown own hname) x

/-- **An element is compared with the seed when it is tested.** It passes where it would pass without the
seed, and what is then bound agrees with the seed. -/
theorem Filler.agrees_seeded (hds : VariableKinds.ofDeclarations ds = .ok kinds)
    (hp : p.declarations ⊆ ds) {s : Stage} (hs : p.fits seed s.bindings = true) {l : Place}
    (hl : l ∈ p.places) {f : Filler} {repeated : Bool} (hf : l.filler? = some (f, repeated))
    (x : ElementId) :
    f.agrees ⟨store, config, seed⟩ (Bindings.hide kinds seed s.bindings) repeated (s.takenBy? f.name) x =
      (f.agrees ⟨store, config, []⟩ s.bindings repeated (s.takenBy? f.name) x &&
        p.fits seed (s.bind f.name repeated x).bindings) := by
  cases hname : f.name with
  | none =>
    have hsame : p.fits seed (s.bind none repeated x).bindings = true := hs
    rw [hsame, Bool.and_true]
    simp only [agrees, hname, Option.bind_none]
  | some name =>
    obtain ⟨hshown, hgroup⟩ := PathPattern.name_of_filler? seed hds hp hl hf hname
    cases repeated with
    | true =>
      have hfits : p.fits seed (s.bind (some name) true x).bindings = true := by
        simp only [Stage.bind, Bool.not_true, Bool.false_eq_true, if_false]
        split
        · exact hs
        · exact decide_eq_true ((of_decide_eq_true hs).collect (hgroup.mpr rfl) x)
      rw [hfits, Bool.and_true]
      rfl
    | false =>
      have hout : name ∉ Place.groupNames p.places := fun h => Bool.false_ne_true (hgroup.mp h)
      have hbind : (s.bind (some name) false x).bindings =
          s.bindings.insertNew name (.ofElement x) := rfl
      have hget := Bindings.get?_hide kinds seed s.bindings name
      rw [hshown, if_neg Bool.false_ne_true] at hget
      simp only [agrees, hname, Option.bind_some, hget, hbind, Bool.false_eq_true, if_false]
      cases hown : s.bindings.get? name with
      | some b =>
        rw [Assoc.insertNew_of_get? hown, hs, Bool.and_true]
        rfl
      | none =>
        have hfits : p.fits seed (s.bindings ++ [(name, .ofElement x)]) = true ↔
            ∀ there, seed.get? name = some there → Bound.ofElement x = there := by
          rw [PathPattern.fits, decide_eq_true_eq, Bindings.agreesOutside_concat hout,
            and_iff_right (of_decide_eq_true hs)]
        rw [Assoc.insertNew_of_get?_none hown, Bool.eq_iff_iff, Option.none_or, Option.none_or]
        simp only [Assoc.get?, Bool.true_and, hfits]
        cases seed.get? name with
        | none => simp
        | some there =>
          rw [beq_iff_eq]
          exact ⟨fun h there' heq => (Option.some.inj heq ▸ h).symm, fun h => (h there rfl).symm⟩

/-- Without a WHERE clause nothing but the variable of an element depends on the seed. -/
theorem Filler.admits_seeded (hds : VariableKinds.ofDeclarations ds = .ok kinds)
    (hp : p.declarations ⊆ ds) {s : Stage} (hs : p.fits seed s.bindings = true) {l : Place}
    (hl : l ∈ p.places) (hbare : l.condition? = none) {f : Filler} {repeated : Bool}
    (hf : l.filler? = some (f, repeated)) (x : ElementId) :
    f.admits ⟨store, config, seed⟩ (Bindings.hide kinds seed s.bindings) repeated (s.takenBy? f.name) x =
      (f.admits ⟨store, config, []⟩ s.bindings repeated (s.takenBy? f.name) x &&
        p.fits seed (s.bind f.name repeated x).bindings) := by
  have hcondition : f.condition = none := (Place.condition?_of_filler? hf).symm.trans hbare
  simp only [admits, hcondition, Option.all_none, Bool.and_true, agrees_seeded hds hp hs hl hf x]
  rw [Bool.and_right_comm (agrees _ _ _ _ _ _), Bool.and_right_comm (_ && _) (p.fits _ _)]

theorem Stage.lasts_bind (s : Stage) {places : List Place} {l : Place} (hl : l ∈ places) {f : Filler}
    {repeated : Bool} (hf : l.filler? = some (f, repeated)) (x : ElementId) :
    Bindings.Lasts (Place.groupNames places) s.bindings (s.bind f.name repeated x).bindings := by
  cases hname : f.name with
  | none => exact .refl _ _
  | some name =>
    simp only [bind]
    split
    · exact Bindings.lasts_insertNew _ _ _
    · next hrepeated =>
      split
      · exact .refl _ _
      · have hrepeated : repeated = true := by simpa using hrepeated
        exact Bindings.lasts_collect _ (Place.mem_groupNames_of_filler? hl (hrepeated ▸ hf) hname) x

theorem Thread.lasts_closeGroup? {env : Env} {names : List String} {own later : Bindings} {sub : Path}
    {name : Option String} {condition : Option Expr} {repeated : Bool}
    (h : closeGroup? env own sub name condition repeated = some later) : Bindings.Lasts names own later := by
  have hbound := Option.eq_some_of_filter_eq_some h
  cases name with
  | none =>
    cases hbound
    exact .refl names own
  | some name => exact Bindings.lasts_bindPath? hbound

theorem PathPattern.lost_moves (env : Env) (p : PathPattern) (seed : Bindings) :
    Moves p.places (Stage.Keeps env fun own => p.fits seed own = false) :=
  Stage.keeps_moves (fun s {_ _ _} x hl hf _ h => fits_of_lasts (s.lasts_bind hl hf x) h)
    fun _ hclose h => fits_of_lasts (Thread.lasts_closeGroup? hclose) h

/-- **Giving up early loses nothing.** Without WHERE clauses a search with a seed goes the ways of a search
without it whose bindings agree with the seed. -/
theorem PathPattern.sifts_seeded (hds : VariableKinds.ofDeclarations ds = .ok kinds)
    (hp : p.declarations ⊆ ds) (hbare : ∀ l ∈ p.places, l.condition? = none) :
    Sifts p.places ⟨store, config, []⟩ ⟨store, config, seed⟩ (fun _ => True) (p.fits seed)
      (Bindings.hide kinds seed) where
  store := rfl
  keeps := Stage.keeps_moves (fun _ {_ _ _} _ _ _ _ h => h) fun _ _ h => h
  loses := p.lost_moves ⟨store, config, []⟩ seed
  bind {s} _ hs l hl f repeated hf x := by
    rw [Stage.bind_hide hds hp s hl hf x, Filler.admits_seeded hds hp hs hl (hbare l hl) hf x]
    cases f.admits ⟨store, config, []⟩ s.bindings repeated (s.takenBy? f.name) x with
    | false => rfl
    | true =>
      cases hbound : p.fits seed (s.bind f.name repeated x).bindings with
      | false => simp [Stage.sift, hbound]
      | true => exact (Stage.sift_singleton hbound).symm
  closeGroup? {own} _ hkeep name mode condition repeated hplace sub := by
    have hnone : condition = none := hbare _ hplace
    subst hnone
    have htrue (later : Option Bindings) : later.filter (fun _ => true) = later := by
      cases later <;> rfl
    simp only [Thread.closeGroup?, Option.all_none, htrue]
    cases name with
    | none =>
      have hfilter : (some own).filter (p.fits seed) = some own := by rw [Option.filter_some, if_pos hkeep]
      exact (congrArg (Option.map _) hfilter).symm
    | some name =>
      have hkind := VariableKinds.kind_of_place hds hp hplace rfl
      have hout := VariableKinds.not_mem_groupNames_of_path hds hp hkind
      exact Bindings.bindPath?_hide hkind hout (of_decide_eq_true hkeep) sub

end Moves

/-! ## Solutions -/

section Solutions

variable {store : Store} {config : MatchConfig} {seed own : Bindings} {ds : List Declaration}
  {kinds : VariableKinds} {p : PathPattern}

/-- A solution as a search with a seed finds it. -/
def Solution.hide (kinds : VariableKinds) (seed : Bindings) (x : Solution) : Solution :=
  ⟨Bindings.hide kinds seed x.bindings, x.path⟩

/-- The bindings of a match with all its groups. -/
def Program.withGroups (p : Program) (own : Bindings) : Bindings :=
  p.groupVariables.foldl (fun m v => m.insertNew v.1 (.group [])) own

/-- The bindings of a match with the variable of its path. -/
def Program.withPath? (p : Program) (seed own : Bindings) (q : Path) : Option Bindings :=
  match p.name with
  | some name => own.bindPath? seed name q
  | none => some own

theorem Search.solution?_eq (env : Env) (p : Program) (t : Thread) :
    solution? env p t = ((closeGroups? env p t.bindings).bind fun all =>
      p.withPath? env.seed all t.walk.toPath).map (⟨·, t.walk.toPath⟩) := by
  unfold solution? Program.withPath?
  cases closeGroups? env p t.bindings with
  | none => rfl
  | some all =>
    cases p.name with
    | none => rfl
    | some name => cases hbound : all.bindPath? env.seed name t.walk.toPath <;> simp [hbound]

/-- A search without a seed closes its groups without comparing them. -/
theorem Search.closeGroups?_unseeded (p : Program) (own : Bindings) :
    closeGroups? ⟨store, config, []⟩ p own = some (p.withGroups own) := by
  rw [closeGroups?_eq, Option.filter_some]
  exact if_pos (List.all_eq_true.mpr fun _ _ => rfl)

theorem Program.hides_groupVariable (seed : Bindings)
    (hds : VariableKinds.ofDeclarations ds = .ok kinds) (hp : p.declarations ⊆ ds)
    {v : String × VariableKind} (hv : v ∈ (compile p).groupVariables) :
    Bindings.hides kinds seed v.1 = false := by
  have hgroup := PathPattern.mem_groupNames.mpr ⟨v, hv, rfl⟩
  obtain ⟨kind, hkind, hisGroup⟩ := VariableKinds.kind_of_groupName hds hp hgroup
  refine Bindings.hides_of_kind hkind fun hpath => ?_
  rw [hpath] at hisGroup
  cases hisGroup

theorem Program.withGroups_hide (hds : VariableKinds.ofDeclarations ds = .ok kinds)
    (hp : p.declarations ⊆ ds) (own : Bindings) :
    (compile p).withGroups (Bindings.hide kinds seed own) =
      Bindings.hide kinds seed ((compile p).withGroups own) := by
  have hshown : ∀ v ∈ (compile p).groupVariables, Bindings.hides kinds seed v.1 = false :=
    fun _ hv => hides_groupVariable seed hds hp hv
  unfold withGroups
  generalize (compile p).groupVariables = vs at hshown
  induction vs generalizing own with
  | nil => rfl
  | cons v vs ih =>
    rw [List.foldl_cons, ← Bindings.hide_insertNew own (hshown v List.mem_cons_self)]
    exact ih _ fun w hw => hshown w (List.mem_cons_of_mem _ hw)

/-- **Groups are compared with the seed at the end.** They are closed where they agree with it. -/
theorem Search.closeGroups?_hide (hds : VariableKinds.ofDeclarations ds = .ok kinds)
    (hp : p.declarations ⊆ ds) (hnodup : own.keys.Nodup) (hfits : p.fits seed own = true) :
    closeGroups? ⟨store, config, seed⟩ (.compile p) (Bindings.hide kinds seed own) =
      ((some ((Program.compile p).withGroups own)).filter fun all => decide (seed.Agrees all)).map
        (Bindings.hide kinds seed) := by
  have hclose (own : Bindings) : closeGroups? ⟨store, config, seed⟩ (.compile p) own =
      (some ((Program.compile p).withGroups own)).filter fun all =>
        (Program.compile p).groupVariables.all fun v =>
          (seed.get? v.1).all fun seeded => all.get? v.1 == some seeded :=
    closeGroups?_eq ⟨store, config, seed⟩ (.compile p) own
  rw [hclose, Program.withGroups_hide hds hp]
  refine filter_some_map ?_
  have hget : ∀ v ∈ (Program.compile p).groupVariables,
      (Bindings.hide kinds seed ((Program.compile p).withGroups own)).get? v.1 =
        ((Program.compile p).withGroups own).get? v.1 := fun v hv => by
    rw [Bindings.get?_hide, Program.hides_groupVariable seed hds hp hv, if_neg Bool.false_ne_true]
  rw [Bool.eq_iff_iff, decide_eq_true_eq]
  constructor
  · intro hgroups
    have hclosed : closeGroups? ⟨store, config, seed⟩ (.compile p) own =
        some ((Program.compile p).withGroups own) := by
      rw [hclose, Option.filter_some, if_pos]
      refine List.all_eq_true.mpr fun v hv => ?_
      rw [← hget v hv]
      exact List.all_eq_true.mp hgroups v hv
    exact agrees_of_closeGroups? hclosed hnodup (of_decide_eq_true hfits)
  · intro hagrees
    refine List.all_eq_true.mpr fun v hv => ?_
    rw [hget v hv]
    cases hthere : seed.get? v.1 with
    | none => rfl
    | some there =>
      have hkey : v.1 ∈ ((Program.compile p).withGroups own).keys :=
        Assoc.mem_keys_foldl_insertNew.mpr (.inr ⟨v, hv, rfl⟩)
      cases hbound : ((Program.compile p).withGroups own).get? v.1 with
      | none => exact absurd hkey (Assoc.get?_eq_none_iff.mp hbound)
      | some b =>
        have hsame : b = there := hagrees _ (Assoc.mem_of_get? hbound) there hthere
        simp [hsame]

/-- The path is compared with the seed as well. -/
theorem Program.withPath?_hide (hds : VariableKinds.ofDeclarations ds = .ok kinds)
    (hp : p.declarations ⊆ ds) (hagrees : seed.Agrees own) (q : Path) :
    (compile p).withPath? seed (Bindings.hide kinds seed own) q =
      (((compile p).withPath? [] own q).filter fun later => decide (seed.Agrees later)).map
        (Bindings.hide kinds seed) := by
  cases hname : p.name with
  | none =>
    have hnone : (compile p).name = none := hname
    simp only [withPath?, hnone]
    rw [Option.filter_some, if_pos (decide_eq_true hagrees), Option.map_some]
  | some name =>
    have hsome : (compile p).name = some name := hname
    have hout : name ∉ ([] : List String) := List.not_mem_nil
    have hbound := Bindings.bindPath?_hide (VariableKinds.kind_of_name hds hp hname) hout
      (hagrees.outside []) q
    simp only [Bindings.agreesOutside_nil] at hbound
    simp only [withPath?, hsome, hbound]

theorem Program.lasts_withPath? {names : List String} {p : Program} {own later : Bindings} {q : Path}
    (h : p.withPath? seed own q = some later) : Bindings.Lasts names own later := by
  unfold withPath? at h
  split at h
  · exact Bindings.lasts_bindPath? h
  · cases h
    exact .refl names own

theorem Search.lasts_solution? {env : Env} {t : Thread} {x : Solution} {names : List String}
    (h : solution? env (.compile p) t = some x) : Bindings.Lasts names t.bindings x.bindings := by
  obtain ⟨all, hclose, hx⟩ := of_solution? h
  have hall : Bindings.Lasts names t.bindings all :=
    of_closeGroups? hclose ▸ Bindings.lasts_foldl_insertNew _ t.bindings
  rcases hx with rfl | ⟨name, later, -, hbound, rfl⟩
  · exact hall
  · exact hall.trans (Bindings.lasts_bindPath? hbound)

/-- **A solution is compared with the seed.** A way that agrees with the seed so far leads to a solution
with the seed if it leads to one without it that agrees with the seed. -/
theorem Stage.solution?_hide (hds : VariableKinds.ofDeclarations ds = .ok kinds)
    (hp : p.declarations ⊆ ds) {u : Stage} (hnodup : u.bindings.keys.Nodup)
    (hfits : p.fits seed u.bindings = true) :
    (u.rebind (Bindings.hide kinds seed)).solution? ⟨store, config, seed⟩ (.compile p) =
      ((u.solution? ⟨store, config, []⟩ (.compile p)).filter fun x =>
        decide (seed.Agrees x.bindings)).map (Solution.hide kinds seed) := by
  rw [solution?, solution?, Search.solution?_eq, Search.solution?_eq]
  simp only [Thread.start, rebind, Search.closeGroups?_hide hds hp hnodup hfits,
    Search.closeGroups?_unseeded, Option.bind_some]
  by_cases hagrees : seed.Agrees ((Program.compile p).withGroups u.bindings)
  · rw [Option.filter_some, if_pos (decide_eq_true hagrees), Option.map_some, Option.bind_some,
      Program.withPath?_hide hds hp hagrees]
    cases (Program.compile p).withPath? [] ((Program.compile p).withGroups u.bindings) u.walk.toPath with
    | none => rfl
    | some later =>
      rw [Option.map_some, Option.filter_some, Option.filter_some]
      split <;> rfl
  · rw [Option.filter_some, if_neg (by simpa using hagrees)]
    cases hlater : (Program.compile p).withPath? [] ((Program.compile p).withGroups u.bindings)
      u.walk.toPath with
    | none => rfl
    | some later =>
      have hlost : ¬seed.Agrees later := fun hlast => hagrees (Bindings.agreesOutside_nil.mp
        ((Program.lasts_withPath? hlater).agreesOutside (hlast.outside [])))
      rw [Option.map_some, Option.filter_some, if_neg (by simpa using hlost)]
      rfl

/-- A search with a seed goes the ways of one without it that agree with the seed. -/
theorem PathPattern.ways_seeded {g : Graph} (hg : g.Indexed)
    (hds : VariableKinds.ofDeclarations ds = .ok kinds) (hp : p.declarations ⊆ ds)
    (hbare : ∀ l ∈ p.places, l.condition? = none) (limit : Nat) :
    p.ways ⟨g.store, config, seed⟩ [] limit =
      Stage.sift (p.fits seed) (Bindings.hide kinds seed) (p.ways ⟨g.store, config, []⟩ [] limit) := by
  rw [ways_everywhere hg rfl, ways_everywhere hg rfl, Stage.sift_flatMap]
  refine List.flatMap_congr fun v _ => ?_
  exact p.expr.ways_sift (sifts_seeded hds hp hbare) ⟨⟨g.store, config, []⟩, p.modeInForce, [], false⟩
    (.start v [] limit) rfl trivial (decide_eq_true nofun) (List.Subset.refl _)

/-- The solutions of a search with a seed are those of one without it that agree with the seed. -/
theorem PathPattern.filterMap_sift (hds : VariableKinds.ofDeclarations ds = .ok kinds)
    (hp : p.declarations ⊆ ds) {us : List Stage} (hnodup : ∀ u ∈ us, u.bindings.keys.Nodup) :
    (Stage.sift (p.fits seed) (Bindings.hide kinds seed) us).filterMap
        (Stage.solution? ⟨store, config, seed⟩ (.compile p)) =
      ((us.filterMap (Stage.solution? ⟨store, config, []⟩ (.compile p))).filter fun x =>
        decide (seed.Agrees x.bindings)).map (Solution.hide kinds seed) := by
  rw [Stage.sift, List.filterMap_map, List.filterMap_filter, List.filter_filterMap, List.map_filterMap]
  refine List.filterMap_congr fun u hu => ?_
  split
  · next hfits => exact Stage.solution?_hide hds hp (hnodup u hu) hfits
  · next hfits =>
    -- What has been given up does not agree with the seed in the end.
    cases hx : u.solution? ⟨store, config, []⟩ (.compile p) with
    | none => rfl
    | some x =>
      have hlost : ¬seed.Agrees x.bindings := fun hagrees =>
        hfits (decide_eq_true ((Search.lasts_solution? hx).agreesOutside (hagrees.outside _)))
      rw [Option.filter_some, if_neg (by simpa using hlost)]
      rfl

/-- **What a search with a seed finds is what one without it finds that agrees with the seed.** -/
theorem PathPattern.matched_hide {g : Graph} (hg : g.Indexed)
    (hds : VariableKinds.ofDeclarations ds = .ok kinds) (hp : p.declarations ⊆ ds)
    (hbare : ∀ l ∈ p.places, l.condition? = none) :
    (Program.compile p).matched ⟨g.store, config, seed⟩ [] =
      (((Program.compile p).matched ⟨g.store, config, []⟩ []).filter fun x =>
        decide (seed.Agrees x.bindings)).map (Solution.hide kinds seed) := by
  rw [matched_ways, matched_ways, ways_seeded hg hds hp hbare]
  refine filterMap_sift hds hp fun u hu => ?_
  obtain ⟨v, -, hu⟩ := List.mem_flatMap.mp hu
  have hgrows := p.expr.ways_of_moves (growsTo_moves p.places) _ _ (List.Subset.refl _) u hu
  exact hgrows.nodup List.nodup_nil

end Solutions

/-! ## Matches -/

/-- A path pattern without WHERE clauses that makes sense with some bindings makes sense without any. -/
theorem PathPattern.validate_of_bare {p : PathPattern} (h : ∀ l ∈ p.places, l.condition? = none)
    {store : Store} {strict : Bool} {bound kinds : VariableKinds}
    (hvalid : p.toGraphPattern.validate store strict bound = .ok kinds) :
    p.toGraphPattern.validate store strict [] = .ok kinds := by
  rw [GraphPattern.validate_eq_ok_iff] at hvalid ⊢
  refine ⟨hvalid.quantifiers, hvalid.declarations, nofun, fun m hm => ?_⟩
  have hmentioned : m ∈ p.expr.mentions := by
    simpa [GraphPattern.mentions, toGraphPattern, conditionMentions] using hm
  obtain ⟨l, hl, hplace⟩ := (p.expr.mem_mentions_iff false).mp hmentioned
  rw [Place.check_of_bare (h l hl) hplace store strict kinds [] bound]
  exact hvalid.mentions m hm

/-- What a search leaves to its seed is bound by the seed. -/
theorem Bindings.extendedBy_hide (kinds : VariableKinds) (seed own : Bindings) :
    seed.extendedBy (hide kinds seed own) = seed.extendedBy own := by
  rw [extendedBy, extendedBy, hide, List.filter_filter]
  refine congrArg (seed ++ ·) (List.filter_congr fun b _ => ?_)
  rw [hides]
  cases seed.has b.1 <;> simp

theorem Solution.toMatch_unseeded {x : Solution} (hnodup : x.bindings.keys.Nodup) :
    x.toMatch [] = ⟨x.bindings, [x.path]⟩ := by
  have hagrees : Bindings.Agrees [] x.bindings := fun _ _ _ hthere => by cases hthere
  rw [toMatch, Bindings.combine_of_agrees hnodup hagrees]
  exact congrArg (Match.mk · [x.path]) (List.filter_true x.bindings)

theorem Solution.toMatch_hide (kinds : VariableKinds) {seed : Bindings} {x : Solution}
    (hnodup : x.bindings.keys.Nodup) (hagrees : seed.Agrees x.bindings) :
    (x.hide kinds seed).toMatch seed = ⟨seed.extendedBy x.bindings, [x.path]⟩ := by
  have hsub : (Bindings.hide kinds seed x.bindings).Sublist x.bindings := List.filter_sublist
  have hcombine := Bindings.combine_of_agrees (hnodup.sublist (hsub.map _))
    fun b hb => hagrees b (hsub.subset hb)
  rw [Bindings.extendedBy_hide] at hcombine
  exact congrArg (Match.mk · [x.path]) hcombine

/-- **A seed is a filter.** Without WHERE clauses and for all paths, what a path pattern finds with a seed
are those of its matches that agree with the seed, in the same order and with the same paths; each of
them binds what the seed binds, and after it what else it binds. -/
theorem PathPattern.matches_seeded (p : PathPattern) (g : Graph) (config : MatchConfig) (seed : Bindings)
    {found : List Match} (hg : g.Built) (hmax : config.maxSteps = none) (hp : p.selectorInForce = .all)
    (hbare : ∀ l ∈ p.places, l.condition? = none)
    (h : (p.toGraphPattern.matches ⟨g.store, config, seed⟩).map (·.1) = .ok found) :
    ∃ all, (p.toGraphPattern.matches ⟨g.store, config, []⟩).map (·.1) = .ok all ∧
      found = (all.filter fun r => decide (seed.Agrees r.bindings)).map fun r =>
        ⟨seed.extendedBy r.bindings, r.paths⟩ := by
  have hunseeded := p.matches_single ⟨g.store, config, []⟩ hmax
  rw [p.matches_single ⟨g.store, config, seed⟩ hmax, Program.solutions_all hmax hp] at h
  rw [Program.solutions_all hmax hp] at hunseeded
  cases hvalid : p.toGraphPattern.validate g.store config.strictCatalog seed.kinds with
  | error e =>
    rw [hvalid] at h
    cases h
  | ok kinds =>
    rw [hvalid] at h
    obtain rfl := Except.ok.inj h
    have hvalid' : p.toGraphPattern.validate g.store config.strictCatalog (Bindings.kinds []) = .ok kinds :=
      validate_of_bare hbare hvalid
    rw [hvalid'] at hunseeded
    refine ⟨_, hunseeded, ?_⟩
    have hnodup : ∀ x ∈ (Program.compile p).matched ⟨g.store, config, []⟩ [],
        x.bindings.keys.Nodup := fun x hx => (growsTo_matched hx).nodup List.nodup_nil
    rw [p.matched_hide hg.indexed (GraphPattern.kind_of_validate hvalid)
      (declarations_subset (List.mem_singleton_self p)) hbare, List.map_map, List.filter_map, List.map_map]
    have hagrees : ((Program.compile p).matched ⟨g.store, config, []⟩ []).filter
        ((fun r : Match => decide (seed.Agrees r.bindings)) ∘ (·.toMatch [])) =
          ((Program.compile p).matched ⟨g.store, config, []⟩ []).filter fun x =>
            decide (seed.Agrees x.bindings) := List.filter_congr fun x hx => by
      rw [Function.comp_apply, Solution.toMatch_unseeded (hnodup x hx)]
    rw [hagrees]
    refine List.map_congr_left fun x hx => ?_
    obtain ⟨hmatched, hseed⟩ := List.mem_filter.mp hx
    rw [Function.comp_apply, Function.comp_apply, Solution.toMatch_unseeded (hnodup x hmatched)]
    exact Solution.toMatch_hide kinds (hnodup x hmatched) (of_decide_eq_true hseed)

/-- Of two vertices the one that the seed binds is left, with what the seed binds before it. -/
theorem matches_seeded_vertex :
    let p : PathPattern := { expr := .term [.mk (.node { name := some "a" }) none] }
    let config : MatchConfig := { maxPathLength := 1 }
    let seed : Bindings := [("c", .group []), ("a", .vertex ⟨2⟩)]
    Graph.hop.Built ∧ config.maxSteps = none ∧ p.selectorInForce = .all ∧
      (∀ l ∈ p.places, l.condition? = none) ∧
      (p.toGraphPattern.matches ⟨Graph.hop.store, config, seed⟩).map (·.1) =
        .ok [⟨seed, [⟨[⟨2⟩], []⟩]⟩] ∧
      ∃ all, (p.toGraphPattern.matches ⟨Graph.hop.store, config, []⟩).map (·.1) = .ok all ∧
        ([⟨seed, [⟨[⟨2⟩], []⟩]⟩] : List Match) = (all.filter fun r =>
          decide (seed.Agrees r.bindings)).map fun r => ⟨seed.extendedBy r.bindings, r.paths⟩ := by
  intro p config seed
  have hbare : ∀ l ∈ p.places, l.condition? = none := fun l hl => by
    obtain rfl := List.mem_singleton.mp hl
    rfl
  have hseeded : (p.toGraphPattern.matches ⟨Graph.hop.store, config, seed⟩).map (·.1) =
      .ok [⟨seed, [⟨[⟨2⟩], []⟩]⟩] := by
    have hways : p.ways ⟨Graph.hop.store, config, seed⟩ [] 1 =
        [⟨⟨⟨2⟩, []⟩, [("a", .vertex ⟨2⟩)], [], 1⟩] := rfl
    have hmatches := p.matches_ways ⟨Graph.hop.store, config, seed⟩ rfl rfl
    rw [show config.maxPathLength = 1 from rfl, hways] at hmatches
    exact hmatches
  exact ⟨Graph.built_hop, rfl, rfl, hbare, hseeded,
    p.matches_seeded Graph.hop config seed Graph.built_hop rfl rfl hbare hseeded⟩

end GraphPatterns
