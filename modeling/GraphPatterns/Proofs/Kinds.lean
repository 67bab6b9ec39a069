/-
What is bound is of the kind that was declared. The kinds of a pattern are found before the search, from
its declarations; the search never looks at them, and binds what its places tell it to. Still every move
binds a thing of the kind of its variable, and only elements of the walk (`sound_moves`). So does a
match, also in what it has from its seed (`GraphPattern.matches_sound`).
-/
import GraphPatterns.Proofs.GroupVariables
import GraphPatterns.Proofs.KeptSeed
import GraphPatterns.Proofs.LegalMatches

namespace GraphPatterns

/-! ## Kinds -/

/-- The kind of a variable that stands for the element. -/
def ElementId.kind : ElementId → VariableKind
  | .vertex _ => .node
  | .edge _ => .edge

/-- Whether a thing that is bound is of a kind: a group is one of vertices only, or of edges only. -/
def VariableKind.Describes : VariableKind → Bound → Prop
  | .node, .vertex _ => True
  | .edge, .edge _ => True
  | .nodeGroup, .group items => ∀ x ∈ items, x.kind = .node
  | .edgeGroup, .group items => ∀ x ∈ items, x.kind = .edge
  | .path, .path _ => True
  | _, _ => False

/-- The vertices and edges in what is bound, paths left out. -/
def Bound.elements : Bound → List ElementId
  | .vertex v => [.vertex v]
  | .edge e => [.edge e]
  | .group items => items
  | .path _ => []

namespace VariableKind

theorem describes_ofElement (x : ElementId) : x.kind.Describes (.ofElement x) := by
  cases x <;> trivial

theorem describes_group (x : ElementId) (items : List ElementId) :
    x.kind.grouped.Describes (.group items) ↔ ∀ y ∈ items, y.kind = x.kind := by
  cases x <;> exact Iff.rfl

theorem describes_nil {kind : VariableKind} (h : kind.isGroup = true) : kind.Describes (.group []) := by
  cases kind with
  | nodeGroup => exact nofun
  | edgeGroup => exact nofun
  | node => cases h
  | edge => cases h
  | path => cases h

theorem Describes.exists_group {kind : VariableKind} {b : Bound} (h : kind.Describes b)
    (hgroup : kind.isGroup = true) : ∃ items, b = .group items := by
  cases b with
  | group items => exact ⟨items, rfl⟩
  | vertex v => cases kind <;> first | exact h.elim | cases hgroup
  | edge e => cases kind <;> first | exact h.elim | cases hgroup
  | path q => cases kind <;> first | exact h.elim | cases hgroup

/-- What is bound before a match is of the kind that its validation reads off, groups left out. -/
theorem describes_of_kind? {kind : VariableKind} {b : Bound} (h : b.kind? = some kind)
    (hgroup : kind.isGroup = false) : kind.Describes b := by
  cases b with
  | vertex v =>
    cases h
    trivial
  | edge e =>
    cases h
    trivial
  | path q =>
    cases h
    trivial
  | group items =>
    match items with
    | [] => cases h
    | .vertex _ :: _ =>
      cases h
      cases hgroup
    | .edge _ :: _ =>
      cases h
      cases hgroup

end VariableKind

/-- Nothing can be said only of an empty group. -/
theorem Bound.kind?_eq_none_iff {b : Bound} : b.kind? = none ↔ b = .group [] := by
  match b with
  | .vertex _ | .edge _ | .path _ => exact ⟨nofun, nofun⟩
  | .group [] => exact ⟨fun _ => rfl, fun _ => rfl⟩
  | .group (.vertex _ :: _) | .group (.edge _ :: _) => exact ⟨nofun, nofun⟩

@[simp] theorem Bound.elements_ofElement (x : ElementId) : (Bound.ofElement x).elements = [x] := by
  cases x <;> rfl

/-! ## Sound bindings -/

/-- Bindings of variables to things of their kinds that are made of elements that have been seen. -/
def Bindings.Sound (kinds : VariableKinds) (seen : List ElementId) (own : Bindings) : Prop :=
  ∀ b ∈ own, ∃ kind, kinds.get? b.1 = some kind ∧ kind.Describes b.2 ∧ b.2.elements ⊆ seen

namespace Bindings

variable {kinds : VariableKinds} {seen seen' : List ElementId} {own later : Bindings} {name : String}
  {kind : VariableKind}

theorem sound_nil (kinds : VariableKinds) (seen : List ElementId) : Sound kinds seen [] := nofun

theorem Sound.mono (h : Sound kinds seen own) (hseen : seen ⊆ seen') : Sound kinds seen' own :=
  fun b hb => by
    obtain ⟨kind, hkind, hdescribes, helements⟩ := h b hb
    exact ⟨kind, hkind, hdescribes, List.Subset.trans helements hseen⟩

theorem Sound.of_mem (h : Sound kinds seen own) {b : Bound}
    (hlater : ∀ a ∈ later, a = (name, b) ∨ a ∈ own) (hkind : kinds.get? name = some kind)
    (hb : kind.Describes b) (helements : b.elements ⊆ seen) : Sound kinds seen later := fun a ha => by
  rcases hlater a ha with rfl | ha
  · exact ⟨kind, hkind, hb, helements⟩
  · exact h a ha

theorem Sound.get? (h : Sound kinds seen own) {b : Bound} (hb : own.get? name = some b)
    (hkind : kinds.get? name = some kind) : kind.Describes b ∧ b.elements ⊆ seen := by
  obtain ⟨kind', hkind', hdescribes, helements⟩ := h _ (Assoc.mem_of_get? hb)
  rw [hkind'] at hkind
  cases hkind
  exact ⟨hdescribes, helements⟩

theorem Sound.collect (h : Sound kinds seen own) {x : ElementId}
    (hkind : kinds.get? name = some x.kind.grouped) (hx : x ∈ seen) :
    Sound kinds seen (Thread.collect own name x) := by
  unfold Thread.collect
  split
  · refine h.of_mem (fun _ => Assoc.mem_insert) hkind ?_
      (List.cons_subset.mpr ⟨hx, List.nil_subset seen⟩)
    exact (VariableKind.describes_group x [x]).mpr (by simp)
  · next items hitems =>
    obtain ⟨hdescribes, helements⟩ := h.get? hitems hkind
    refine h.of_mem (fun _ => Assoc.mem_insert) hkind ?_
      (List.append_subset.mpr ⟨helements, List.cons_subset.mpr ⟨hx, List.nil_subset seen⟩⟩)
    rw [VariableKind.describes_group] at hdescribes ⊢
    simpa [or_imp, forall_and] using hdescribes
  · exact h

theorem Sound.bindPath? (h : Sound kinds seen own) {seed : Bindings} {q : Path}
    (hkind : kinds.get? name = some .path) (hlater : own.bindPath? seed name q = some later) :
    Sound kinds seen later :=
  h.of_mem (fun _ ha => (mem_bindPath? hlater ha).symm) hkind trivial (List.nil_subset seen)

theorem Sound.foldl_insertNew {vs : Assoc String VariableKind} (h : Sound kinds seen own)
    (hvs : ∀ v ∈ vs, ∃ kind, kinds.get? v.1 = some kind ∧ kind.isGroup = true) :
    Sound kinds seen (vs.foldl (fun m v => m.insertNew v.1 (.group [])) own) := fun a ha => by
  rcases Assoc.mem_foldl_insertNew ha with ha | ⟨v, hv, rfl⟩
  · exact h a ha
  · obtain ⟨kind, hkind, hgroup⟩ := hvs v hv
    exact ⟨kind, hkind, VariableKind.describes_nil hgroup, List.nil_subset seen⟩

end Bindings

/-! ## Moves -/

section Moves

variable {ds : List Declaration} {kinds : VariableKinds} {p : PathPattern}

theorem Stage.sound_bind {s : Stage} {seen : List ElementId} (h : Bindings.Sound kinds seen s.bindings)
    {name : Option String} {repeated : Bool} {x : ElementId}
    (hkind : ∀ own, name = some own → kinds.get? own = some (x.kind.underQuantifier repeated))
    (hx : x ∈ seen) : Bindings.Sound kinds seen (s.bind name repeated x).bindings := by
  cases name with
  | none => exact h
  | some own =>
    have hown := hkind own rfl
    cases repeated with
    | false =>
      refine h.of_mem (fun _ => Assoc.mem_insertNew) hown (VariableKind.describes_ofElement x) ?_
      rw [Bound.elements_ofElement]
      exact List.cons_subset.mpr ⟨hx, List.nil_subset seen⟩
    | true =>
      simp only [bind, Bool.not_true, Bool.false_eq_true, if_false]
      split
      · exact h
      · exact h.collect hown hx

/-- What is bound is sound, with what has been seen before and the elements of the walk. -/
def Stage.Sound (kinds : VariableKinds) (before : List ElementId) (s : Stage) : Prop :=
  Bindings.Sound kinds (before ++ s.walk.toPath.elements) s.bindings

/-- **Every move binds a thing of the kind of its variable.** -/
theorem sound_moves (hds : VariableKinds.ofDeclarations ds = .ok kinds) (hp : p.declarations ⊆ ds)
    (before : List ElementId) :
    Moves p.places fun _ s u => s.Sound kinds before → u.Sound kinds before where
  refl _ _ := id
  trans h₁ h₂ := h₂ ∘ h₁
  node {c s f} hplace _ h := by
    have hcurrent : .vertex s.walk.current ∈ before ++ s.walk.toPath.elements :=
      List.mem_append_right _ (List.mem_of_getElem? s.walk.elements_last)
    rw [Stage.Sound, Stage.walk_bind]
    exact Stage.sound_bind h (fun own hown => VariableKinds.kind_of_place hds hp hplace hown) hcurrent
  edge {c s pattern room edge} hplace _ _ _ _ h := by
    let crossed : Stage := { s with walk := s.walk.extend edge.1 edge.2, room := room }
    have helements : crossed.walk.toPath.elements =
        s.walk.toPath.elements ++ [.edge edge.1, .vertex edge.2] := s.walk.elements_extend edge.1 edge.2
    have hcrossed : crossed.Sound kinds before := by
      rw [Stage.Sound, helements, ← List.append_assoc]
      exact h.mono (List.subset_append_left _ _)
    have hedge : .edge edge.1 ∈ before ++ crossed.walk.toPath.elements := by simp [helements]
    have hbound : Bindings.Sound kinds (before ++ crossed.walk.toPath.elements)
        (crossed.bind pattern.filler.name c.repeated (.edge edge.1)).bindings :=
      Stage.sound_bind hcrossed (fun own hown => VariableKinds.kind_of_place hds hp hplace hown) hedge
    rw [Stage.Sound, Stage.cross, Stage.walk_bind]
    exact hbound
  group {c s u name mode condition bindings} hplace hinside hclose h := by
    have hbound := Option.eq_some_of_filter_eq_some hclose
    cases name with
    | none =>
      cases hbound
      exact hinside h
    | some name => exact (hinside h).bindPath? (VariableKinds.kind_of_place hds hp hplace rfl) hbound
  again hbody := hbody

end Moves

/-! ## Solutions -/

section Solutions

variable {env : Env} {g : Graph} {ds : List Declaration} {kinds : VariableKinds} {p : PathPattern}
  {before : List ElementId} {base last : Bindings}

/-- **A solution binds things of the kinds of its variables**, and only elements of its path. -/
theorem PathPattern.sound_matched (hds : VariableKinds.ofDeclarations ds = .ok kinds)
    (hp : p.declarations ⊆ ds) (h : base.Sound kinds before) {x : Solution}
    (hx : x ∈ (Program.compile p).matched env base) :
    x.bindings.Sound kinds (before ++ x.path.elements) := by
  obtain ⟨v, -, u, hsound, hx⟩ := exists_of_matched (sound_moves hds hp before) hx
  have hpath : x.path = u.walk.toPath := Search.solution?_path hx
  obtain ⟨all, hclose, hx⟩ := Search.of_solution? hx
  have hall : all.Sound kinds (before ++ x.path.elements) := by
    rw [Search.of_closeGroups? hclose, hpath]
    refine (hsound (h.mono (List.subset_append_left _ _))).foldl_insertNew fun w hw => ?_
    exact VariableKinds.kind_of_groupName hds hp (mem_groupNames.mpr ⟨w, hw, rfl⟩)
  rcases hx with rfl | ⟨name, later, hname, hbound, rfl⟩
  · exact hall
  · exact hall.bindPath? (VariableKinds.kind_of_name hds hp hname) hbound

theorem PathPattern.groupNames_matched {x : Solution} (hx : x ∈ (Program.compile p).matched env base) :
    Place.groupNames p.places ⊆ x.bindings.keys := fun name hname => by
  obtain ⟨v, -, u, -, hx⟩ := exists_of_matched (growsTo_moves p.places) hx
  obtain ⟨all, hclose, hx⟩ := Search.of_solution? hx
  have hall : name ∈ all.keys := by
    rw [Search.of_closeGroups? hclose]
    exact Assoc.mem_keys_foldl_insertNew.mpr (.inr (mem_groupNames.mp hname))
  rcases hx with rfl | ⟨own, later, -, hbound, rfl⟩
  · exact hall
  · exact (Bindings.GrowsTo.bindPath? hbound).keys hall

/-- **A chain of solutions binds things of the kinds of its variables**, and all groups. -/
theorem Chain.sound (hg : g.Indexed) (hstore : env.store = g.store) (hmax : env.config.maxSteps = none)
    {ps : List PathPattern} {xs : List Solution}
    (hds : VariableKinds.ofDeclarations ds = .ok kinds) (hps : ∀ q ∈ ps, q.declarations ⊆ ds)
    (hchain : Chain env ps base xs last) (h : base.Sound kinds before) :
    last.Sound kinds (before ++ xs.flatMap (·.path.elements)) ∧
      ∀ q ∈ ps, Place.groupNames q.places ⊆ last.keys := by
  induction hchain generalizing before with
  | nil => exact ⟨h.mono (List.subset_append_left _ _), nofun⟩
  | @cons p ps base last x xs hx hxs ih =>
    have hmatched := Program.mem_matched hg hstore hmax hx
    obtain ⟨hsound, hgroups⟩ := ih (fun q hq => hps q (List.mem_cons_of_mem _ hq))
      (PathPattern.sound_matched hds (hps p List.mem_cons_self) h hmatched)
    refine ⟨by rwa [List.flatMap_cons, ← List.append_assoc], fun q hq => ?_⟩
    rcases List.mem_cons.mp hq with rfl | hq
    · exact List.Subset.trans (PathPattern.groupNames_matched hmatched) (hxs.growsTo hg hstore hmax).keys
    · exact hgroups q hq

end Solutions

/-! ## Matches -/

theorem Bindings.mem_kinds {seed : Bindings} (hnodup : seed.keys.Nodup) {b : String × Bound}
    (hb : b ∈ seed) {kind : VariableKind} (hkind : b.2.kind? = some kind) : (b.1, kind) ∈ seed.kinds := by
  have hkeys : (Assoc.keys (seed.filterMap fun b => b.2.kind?.map (b.1, ·))).Sublist seed.keys := by
    clear hnodup hb
    induction seed with
    | nil => exact .slnil
    | cons a seed ih =>
      rw [List.filterMap_cons]
      cases a.2.kind? with
      | none => exact ih.cons _
      | some kind => exact ih.cons_cons _
  rw [kinds, Assoc.ofList_of_nodup (hnodup.sublist hkeys), List.mem_filterMap]
  exact ⟨b, hb, by rw [hkind]; rfl⟩

/-- What is bound before a match is of the kind that the pattern declares, groups left out. -/
theorem GraphPattern.describes_seed {p : GraphPattern} {store : Store} {strict : Bool} {seed : Bindings}
    {kinds : VariableKinds} (hnodup : seed.keys.Nodup) (hempty : ∀ b ∈ seed, b.2 ≠ .group [])
    (hvalid : p.validate store strict seed.kinds = .ok kinds) {name : String} {kind : VariableKind}
    {b : Bound} (hb : seed.get? name = some b) (hkind : kinds.get? name = some kind)
    (hgroup : kind.isGroup = false) : kind.Describes b := by
  have hmem := Assoc.mem_of_get? hb
  cases hkind? : b.kind? with
  | none => exact absurd (Bound.kind?_eq_none_iff.mp hkind?) (hempty _ hmem)
  | some kind' =>
    have hcheck := (validate_eq_ok_iff.mp hvalid).before _ (Bindings.mem_kinds hnodup hmem hkind?)
    simp only [VariableKinds.checkBound, hkind] at hcheck
    split at hcheck
    · next heq => exact VariableKind.describes_of_kind? (heq ▸ hkind?) hgroup
    · cases hcheck

/-- **What is bound is of the kind that was declared.** In a match of a pattern that makes sense each
variable of the pattern that is bound stands for a thing of its kind, and unless it was bound before the
match, for elements of the paths of the match. All variables for groups are bound. -/
theorem GraphPattern.matches_sound (p : GraphPattern) (g : Graph) (config : MatchConfig) (seed : Bindings)
    {kinds : VariableKinds} {found : List Match} (hg : g.Built) (hnodup : seed.keys.Nodup)
    (hempty : ∀ b ∈ seed, b.2 ≠ .group [])
    (hvalid : p.validate g.store config.strictCatalog seed.kinds = .ok kinds)
    (h : (p.matches ⟨g.store, config, seed⟩).map (·.1) = .ok found) :
    ∀ m ∈ found,
      (∀ name kind b, kinds.get? name = some kind → m.bindings.get? name = some b →
        kind.Describes b ∧
          (seed.has name = false → ∀ x ∈ b.elements, ∃ path ∈ m.paths, x ∈ path.elements)) ∧
      ∀ q ∈ p.paths, ∀ name ∈ Place.groupNames q.places,
        ∃ items, m.bindings.get? name = some (.group items) := by
  obtain ⟨-, hfound⟩ := mem_matches h
  have hds := kind_of_validate hvalid
  intro m hm
  obtain ⟨xs, last, hchain, rfl, -⟩ := hfound m hm
  have hlast : last.keys.Nodup := (hchain.growsTo hg.indexed rfl rfl).nodup List.nodup_nil
  obtain ⟨hsound, hgroups⟩ := hchain.sound hg.indexed rfl rfl hds
    (fun q hq => PathPattern.declarations_subset hq) (Bindings.sound_nil kinds [])
  have hget : ∀ name, (Join.combine seed last).get? name = (last.get? name).or (seed.get? name) :=
    Join.get?_combine hlast
  refine ⟨fun name kind b hkind hb => ?_, fun q hq name hname => ?_⟩
  · change (Join.combine seed last).get? name = some b at hb
    rw [hget] at hb
    cases hown : last.get? name with
    | some own =>
      rw [hown, Option.some_or] at hb
      obtain rfl := Option.some.inj hb
      obtain ⟨hdescribes, helements⟩ := hsound.get? hown hkind
      refine ⟨hdescribes, fun _ x hx => ?_⟩
      obtain ⟨y, hy, hx⟩ := List.mem_flatMap.mp (helements hx)
      exact ⟨y.path, List.mem_map_of_mem hy, hx⟩
    | none =>
      rw [hown, Option.none_or] at hb
      -- A variable for groups is always bound by the search itself.
      have hgroup : kind.isGroup = false := Bool.eq_false_iff.mpr fun hgroup => by
        obtain ⟨q, hq, hname⟩ := VariableKinds.mem_groupNames_of_get? hds hkind hgroup
        exact Assoc.get?_eq_none_iff.mp hown (hgroups q hq hname)
      refine ⟨describes_seed hnodup hempty hvalid hb hkind hgroup, fun hnew => ?_⟩
      rw [Assoc.has, hb] at hnew
      cases hnew
  · obtain ⟨kind, hkind, hgroup⟩ := VariableKinds.kind_of_groupName hds
      (PathPattern.declarations_subset hq) hname
    obtain ⟨b, hb⟩ : ∃ b, last.get? name = some b :=
      Option.ne_none_iff_exists'.mp fun hnone => Assoc.get?_eq_none_iff.mp hnone (hgroups q hq hname)
    obtain ⟨items, rfl⟩ := (hsound.get? hb hkind).1.exists_group hgroup
    refine ⟨items, ?_⟩
    change (Join.combine seed last).get? name = _
    rw [hget, hb]
    rfl

/-- A group that was not bound before the match is one of edges of its path. -/
theorem matches_sound_hop :
    let p := PathPattern.collectedHop.toGraphPattern
    let config : MatchConfig := { maxPathLength := 1 }
    let seed : Bindings := [("c", .vertex ⟨2⟩)]
    let path : Path := ⟨[⟨1⟩, ⟨2⟩], [⟨1⟩]⟩
    let m : Match := ⟨seed ++ [("e", .group [.edge ⟨1⟩])], [path]⟩
    Graph.hop.Built ∧ seed.keys.Nodup ∧ (∀ b ∈ seed, b.2 ≠ .group []) ∧
      p.validate Graph.hop.store config.strictCatalog seed.kinds = .ok [("e", .edgeGroup)] ∧
      (p.matches ⟨Graph.hop.store, config, seed⟩).map (·.1) = .ok [m] ∧
      VariableKind.edgeGroup.Describes (.group [.edge ⟨1⟩]) ∧
      (∀ x ∈ [ElementId.edge ⟨1⟩], ∃ path ∈ m.paths, x ∈ path.elements) ∧
      ∃ items, m.bindings.get? "e" = some (.group items) := by
  intro p config seed path m
  have hempty : ∀ b ∈ seed, b.2 ≠ .group [] := fun b hb => by
    obtain rfl := List.mem_singleton.mp hb
    exact nofun
  have hvalid : p.validate Graph.hop.store config.strictCatalog seed.kinds = .ok [("e", .edgeGroup)] := rfl
  have hmatches : (p.matches ⟨Graph.hop.store, config, seed⟩).map (·.1) = .ok [m] := by
    have hmatches := PathPattern.collectedHop.matches_ways ⟨Graph.hop.store, config, seed⟩ rfl rfl
    rw [show config.maxPathLength = 1 from rfl, ways_collectedHop seed []] at hmatches
    exact hmatches
  obtain ⟨hkinds, hgroups⟩ := p.matches_sound Graph.hop config seed Graph.built_hop
    (List.nodup_singleton _) hempty hvalid hmatches m (List.mem_singleton_self m)
  obtain ⟨hdescribes, helements⟩ := hkinds "e" .edgeGroup (.group [.edge ⟨1⟩]) rfl rfl
  exact ⟨Graph.built_hop, List.nodup_singleton _, hempty, hvalid, hmatches, hdescribes, helements rfl,
    hgroups .collectedHop (List.mem_singleton_self _) "e" (List.mem_singleton_self _)⟩

end GraphPatterns
