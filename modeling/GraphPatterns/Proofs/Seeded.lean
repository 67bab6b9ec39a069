/-
Going on from bindings, and starting with them. A search of a path pattern that goes on from what
other path patterns have bound finds what a search finds that has all of this bound before it starts,
with what the others have bound in front (`PathPattern.solutions_seeded`). Only variables for groups
are not to be shared: a search would go on with the group that it finds among its bindings, but
compares its own group with one that was bound before it.
-/
import GraphPatterns.Proofs.Agreement
import GraphPatterns.Proofs.Rebinding

namespace GraphPatterns

theorem filter_some_map {α β : Type} {f : α → β} {p : α → Bool} {q : β → Bool} {a : α}
    (h : q (f a) = p a) : (some (f a)).filter q = ((some a).filter p).map f := by
  rw [Option.filter_some, Option.filter_some, h]
  split <;> rfl

/-! ## Bindings on top of others -/

namespace Bindings

/-- Bindings and, after them, those of others that bind further names. -/
def extendedBy (base own : Bindings) : Bindings := base ++ own.filter fun b => !base.has b.1

variable {base own : Bindings}

theorem get?_extendedBy (base own : Bindings) (name : String) :
    (base.extendedBy own).get? name = (base.get? name).or (own.get? name) := by
  have hown := Assoc.get?_filter own (fun key => !base.has key) name
  rw [extendedBy, Assoc.get?_append, hown, Assoc.has]
  cases base.get? name <;> rfl

theorem extendedBy_insertNew (base own : Bindings) (name : String) (b : Bound) :
    base.extendedBy (own.insertNew name b) = (base.extendedBy own).insertNew name b := by
  have hhas : (base.extendedBy own).has name = (base.has name || own.has name) := by
    rw [Assoc.has, get?_extendedBy, Option.isSome_or]
    rfl
  rw [Assoc.insertNew, Assoc.insertNew, hhas]
  cases howned : own.has name with
  | true => simp
  | false => cases hbase : base.has name <;> simp [extendedBy, hbase]

theorem extendedBy_insert (own : Bindings) {name : String} (h : base.get? name = none) (b : Bound) :
    base.extendedBy (own.insert name b) = (base.extendedBy own).insert name b := by
  have hkeep : (!base.has name) = true := by simp [Assoc.has, h]
  have hown := Assoc.filter_insert own (fun key => !base.has key) hkeep b
  rw [extendedBy, hown, extendedBy, Assoc.insert_append h]

theorem extendedBy_collect (own : Bindings) {name : String} (h : base.get? name = none) (x : ElementId) :
    base.extendedBy (Thread.collect own name x) = Thread.collect (base.extendedBy own) name x := by
  have hget : (base.extendedBy own).get? name = own.get? name := by
    rw [get?_extendedBy, h, Option.none_or]
  unfold Thread.collect
  rw [hget]
  split
  · exact extendedBy_insert own h _
  · exact extendedBy_insert own h _
  · rfl

/-- A name stands for the same thing, whether others have bound it or it was bound before the search. -/
theorem visible_extendedBy (seed : Bindings) (hbase : base.keys.Nodup) (h : base.Agrees own)
    (name : String) :
    ((base.extendedBy own).get? name).or (seed.get? name) =
      (own.get? name).or ((Join.combine seed base).get? name) := by
  rw [get?_extendedBy, Join.get?_combine hbase]
  cases hown : own.get? name with
  | none => rw [Option.or_none, Option.none_or]
  | some b =>
    cases hthere : base.get? name with
    | none => rfl
    | some there =>
      have heq : b = there := h _ (Assoc.mem_of_get? hown) there hthere
      rw [heq]
      rfl

/-- What others have bound is a part of a seed that it is added to. -/
theorem isPartOf_combine (seed : Bindings) (hbase : base.keys.Nodup) :
    base.IsPartOf (Join.combine seed base) := fun name there hthere => by
  rw [Join.get?_combine hbase, hthere]
  rfl

/-- What others have bound can be seen by a search that has it in its seed. -/
theorem visible_of_base (seed : Bindings) (hbase : base.keys.Nodup) (h : base.Agrees own) {name : String}
    {there : Bound} (hthere : base.get? name = some there) :
    (own.get? name).or ((Join.combine seed base).get? name) = some there := by
  rw [← visible_extendedBy seed hbase h, get?_extendedBy, hthere]
  rfl

theorem bindPath?_extendedBy (seed : Bindings) (hbase : base.keys.Nodup) (h : base.Agrees own)
    (name : String) (sub : Path) : (base.extendedBy own).bindPath? seed name sub =
      (own.bindPath? (Join.combine seed base) name sub).map base.extendedBy := by
  have hvisible := visible_extendedBy seed hbase h name
  simp only [bindPath?, hvisible]
  cases hthere : (own.get? name).or ((Join.combine seed base).get? name) with
  | some there =>
    simp only []
    split <;> rfl
  | none =>
    have hnone : base.get? name = none := Option.eq_none_iff_forall_ne_some.mpr fun there hbound =>
      absurd ((visible_of_base seed hbase h hbound).symm.trans hthere) (Option.some_ne_none there)
    exact congrArg some (extendedBy_insert own hnone _).symm

/-- After others have bound names, all that is bound is what is bound after the search with these as its
seed. -/
theorem combine_extendedBy (seed : Bindings) (hbase : base.keys.Nodup) (h : base.Agrees own) :
    Join.combine seed (base.extendedBy own) = Join.combine (Join.combine seed base) own := by
  have hthere := isPartOf_combine seed hbase
  rw [extendedBy, Join.combine, List.foldl_append]
  change Join.combine (Join.combine seed base) (own.filter _) = _
  -- All that `base` binds stands in `bound` with its own value, so writing it again changes nothing.
  generalize Join.combine seed base = bound at hthere
  induction own generalizing bound with
  | nil => rfl
  | cons b own ih =>
    have hown : base.Agrees own := fun a ha => h a (List.mem_cons_of_mem _ ha)
    have hstep : Join.combine bound (b :: own) = Join.combine (bound.insert b.1 b.2) own := rfl
    rw [hstep]
    cases hbound : base.get? b.1 with
    | some there =>
      have hsame : bound.insert b.1 b.2 = bound := by
        rw [h b List.mem_cons_self there hbound]
        exact Assoc.insert_of_get? (hthere _ _ hbound)
      have hskip : (!base.has b.1) = false := by simp [Assoc.has, hbound]
      rw [List.filter_cons, hskip, hsame]
      exact ih hown bound hthere
    | none =>
      have hkeep : (!base.has b.1) = true := by simp [Assoc.has, hbound]
      rw [List.filter_cons, hkeep]
      refine ih hown (bound.insert b.1 b.2) fun name there hname => ?_
      have hne : b.1 ≠ name := fun heq => by
        rw [heq, hname] at hbound
        cases hbound
      rw [Assoc.get?_insert, if_neg hne]
      exact hthere name there hname

end Bindings

/-! ## Moves -/

/-- A search that has bindings as a part of its seed. -/
def Env.seededWith (env : Env) (base : Bindings) : Env := { env with seed := Join.combine env.seed base }

section Moves

variable {env : Env} {base own : Bindings} {places : List Place}

/-- A scope is what it lets be seen. -/
theorem Scope.lookup_congr {a b seed seed' : Bindings}
    (h : ∀ name, (a.get? name).or (seed.get? name) = (b.get? name).or (seed'.get? name))
    (candidate : Option (String × ElementId)) (latest : Bool) :
    (⟨a, seed, candidate, latest⟩ : Scope).lookup = (⟨b, seed', candidate, latest⟩ : Scope).lookup := by
  funext name
  rw [lookup, lookup, h]
  rfl

theorem Expr.holds_extendedBy (seed : Bindings) (hbase : base.keys.Nodup) (h : base.Agrees own)
    (store : Store) (candidate : Option (String × ElementId)) (latest : Bool) (e : Expr) :
    e.holds store ⟨base.extendedBy own, seed, candidate, latest⟩ =
      e.holds store ⟨own, Join.combine seed base, candidate, latest⟩ :=
  Expr.holds_congr (Scope.lookup_congr (Bindings.visible_extendedBy seed hbase h) candidate latest) e

theorem agrees_moves (env : Env) (hbase : base.keys.Nodup)
    (hgroups : ∀ name ∈ Place.groupNames places, base.get? name = none) :
    Moves places (Stage.Keeps (env.seededWith base) base.Agrees) := by
  have hsame : base.Agrees = Bindings.AgreesOutside (Place.groupNames places) base :=
    funext fun _ => propext ⟨fun h => h.outside _, fun h => h.agrees hgroups⟩
  rw [hsame]
  exact outside_moves (env.seededWith base) places (Bindings.isPartOf_combine env.seed hbase)

/-- **Having bindings in the seed is as good as going on from them**, as long as no group is shared. -/
theorem rebinds_extendedBy (env : Env) (hbase : base.keys.Nodup)
    (hgroups : ∀ name ∈ Place.groupNames places, base.get? name = none) :
    Rebinds places (env.seededWith base) env base.Agrees base.extendedBy where
  store := rfl
  keeps := agrees_moves env hbase hgroups
  admits {own} h f grouped taken x := by
    simp only [Filler.admits, Filler.agrees, Env.seededWith, Bindings.visible_extendedBy env.seed hbase h,
      Expr.holds_extendedBy env.seed hbase h]
  insertNew := Bindings.extendedBy_insertNew base
  collect own name hname x := Bindings.extendedBy_collect own (hgroups name hname) x
  closeGroup? {own} h sub name condition grouped := by
    have hcondition {own : Bindings} (h : base.Agrees own) :
        (condition.all fun e => e.holds env.store ⟨base.extendedBy own, env.seed, none, grouped⟩) =
          condition.all fun e => e.holds env.store ⟨own, Join.combine env.seed base, none, grouped⟩ := by
      simp only [Expr.holds_extendedBy env.seed hbase h]
    cases name with
    | none =>
      simp only [Thread.closeGroup?, Env.seededWith]
      exact filter_some_map (hcondition h)
    | some name =>
      have hbound := Bindings.bindPath?_extendedBy env.seed hbase h name sub
      simp only [Thread.closeGroup?, hbound, Env.seededWith]
      cases hlater : own.bindPath? (Join.combine env.seed base) name sub with
      | none => rfl
      | some later => exact filter_some_map (hcondition (h.bindPath? (Bindings.isPartOf_combine env.seed hbase) hlater))

end Moves

/-! ## Solutions -/

section Solutions

variable {env : Env} {base own : Bindings} {p : PathPattern}

/-- A solution of a search that goes on from bindings. -/
def Solution.onto (base : Bindings) (x : Solution) : Solution := ⟨base.extendedBy x.bindings, x.path⟩

theorem Search.closeGroups?_extendedBy (env : Env) (hbase : base.keys.Nodup)
    (hgroups : ∀ name ∈ Place.groupNames p.places, base.get? name = none) (own : Bindings) :
    closeGroups? env (.compile p) (base.extendedBy own) =
      (closeGroups? (env.seededWith base) (.compile p) own).map base.extendedBy := by
  have hall := @List.foldl_hom _ _ _ base.extendedBy
    (fun m v => m.insertNew v.1 (.group [])) (fun m v => m.insertNew v.1 (.group []))
    (Program.compile p).groupVariables own
    fun m v => (Bindings.extendedBy_insertNew base m v.1 (.group [])).symm
  rw [closeGroups?_eq, closeGroups?_eq, hall]
  refine filter_some_map ?_
  -- Both searches look the groups of the pattern up in the same seed, since `base` has none of them.
  rw [Bool.eq_iff_iff, List.all_eq_true, List.all_eq_true]
  refine forall₂_congr fun v hv => ?_
  obtain ⟨l, hl, hgroup⟩ := PathPattern.mem_groupVariables hv
  have hnone : base.get? v.1 = none := hgroups v.1 (Place.mem_groupNames hl hgroup)
  rw [Bindings.get?_extendedBy, Env.seededWith, Join.get?_combine hbase, hnone, Option.none_or,
    Option.none_or]

theorem Search.agrees_closeGroups? (hgroups : ∀ name ∈ Place.groupNames p.places, base.get? name = none)
    (h : base.Agrees own) {later : Bindings}
    (hlater : closeGroups? env (.compile p) own = some later) : base.Agrees later := by
  intro b hb there hthere
  rw [of_closeGroups? hlater] at hb
  rcases Assoc.mem_foldl_insertNew hb with hb | ⟨v, hv, rfl⟩
  · exact h b hb there hthere
  · obtain ⟨l, hl, hgroup⟩ := PathPattern.mem_groupVariables hv
    rw [hgroups v.1 (Place.mem_groupNames hl hgroup)] at hthere
    cases hthere

theorem startVertices_extendedBy (hbase : base.keys.Nodup) (program : Program) :
    startVertices env program base = startVertices (env.seededWith base) program [] := by
  have hvisible (name : String) : (base.get? name).or (env.seed.get? name) =
      (Assoc.get? ([] : Bindings) name).or ((env.seededWith base).seed.get? name) :=
    (Join.get?_combine hbase name).symm
  simp only [startVertices, hvisible]
  rfl

theorem Stage.solution?_extendedBy (env : Env) (hbase : base.keys.Nodup)
    (hgroups : ∀ name ∈ Place.groupNames p.places, base.get? name = none) {s : Stage}
    (h : base.Agrees s.bindings) :
    Stage.solution? env (.compile p) (s.rebind base.extendedBy) =
      (Stage.solution? (env.seededWith base) (.compile p) s).map (.onto base) := by
  have hclose : Search.closeGroups? env (.compile p) (s.rebind base.extendedBy).bindings = _ :=
    Search.closeGroups?_extendedBy env hbase hgroups s.bindings
  simp only [Stage.solution?, Search.solution?, Thread.start, hclose]
  cases hall : Search.closeGroups? (env.seededWith base) (.compile p) s.bindings with
  | none => rfl
  | some all =>
    have hagrees := Search.agrees_closeGroups? hgroups h hall
    simp only [Option.map_some, Option.bind_eq_bind, Option.bind_some]
    cases (Program.compile p).name with
    | none => rfl
    | some name =>
      simp only [Bindings.bindPath?_extendedBy env.seed hbase hagrees, Stage.walk_rebind, Env.seededWith]
      cases all.bindPath? (Join.combine env.seed base) name s.walk.toPath <;> rfl

/-- **A search that goes on from bindings finds what a search finds that has them as its seed.** -/
theorem PathPattern.matched_seeded (env : Env) (hbase : base.keys.Nodup)
    (hgroups : ∀ name ∈ Place.groupNames p.places, base.get? name = none) :
    (Program.compile p).matched env base =
      ((Program.compile p).matched (env.seededWith base) []).map (.onto base) := by
  have hrebinds := rebinds_extendedBy env hbase hgroups
  have hstages : p.ways env base env.config.maxPathLength =
      (p.ways (env.seededWith base) [] env.config.maxPathLength).map (Stage.rebind base.extendedBy) := by
    have hnil : base.extendedBy [] = base := List.append_nil _
    rw [ways, ways, startVertices_extendedBy hbase, List.map_flatMap]
    refine List.flatMap_congr fun v _ => ?_
    have hways := p.expr.ways_rebind hrebinds ⟨env.seededWith base, p.modeInForce, [], false⟩
      (.start v [] env.config.maxPathLength) rfl (Bindings.agrees_nil base) (List.Subset.refl _)
    rw [← hways, Stage.rebind]
    simp only [Stage.start, hnil]
    rfl
  rw [p.matched_ways, p.matched_ways, hstages, List.filterMap_map, List.map_filterMap]
  refine List.filterMap_congr fun u hu => ?_
  obtain ⟨v, -, hu⟩ := List.mem_flatMap.mp hu
  have hagrees := p.expr.ways_of_moves hrebinds.keeps _ _ (List.Subset.refl _) u hu rfl
    (Bindings.agrees_nil base)
  exact Stage.solution?_extendedBy env hbase hgroups hagrees

theorem PathPattern.agrees_matched (hbase : base.keys.Nodup) {x : Solution}
    (hx : x ∈ (Program.compile p).matched (env.seededWith base) []) : base.Agrees x.bindings := by
  have hnil : (Assoc.keys ([] : Bindings)).Nodup := List.nodup_nil
  exact (seed_agrees_matched hnil (Bindings.agrees_nil _) hx).part
    (Bindings.isPartOf_combine env.seed hbase)

/-- Whether a solution is wanted has nothing to do with what it binds. -/
theorem Selector.wantsAmong_onto (selector : Selector) (scope : SearchScope) (ties : TiePolicy)
    (base : Bindings) (earlier : List Solution) (x : Solution) :
    selector.wantsAmong scope ties (earlier.map (.onto base)) (x.onto base) =
      selector.wantsAmong scope ties earlier x := by
  have hlengths : scope.lengths x.path.ends (earlier.map (.onto base)) =
      scope.lengths x.path.ends earlier := by
    rw [SearchScope.lengths, List.filter_map, List.map_map]
    rfl
  exact congrArg (fun lengths => selector.wants ties lengths x.path.length) hlengths

/-- **Going on from bindings is starting with them.** The solutions of a path pattern that shares no
group with what others have bound are those of a search that has all of this in its seed. -/
theorem PathPattern.solutions_seeded {g : Graph} (hg : g.Indexed) (hstore : env.store = g.store)
    (hmax : env.config.maxSteps = none) (hbase : base.keys.Nodup)
    (hgroups : ∀ name ∈ Place.groupNames p.places, base.get? name = none) :
    (Program.compile p).solutions env base =
      ((Program.compile p).solutions (env.seededWith base) []).map (.onto base) := by
  have hstore' : (env.seededWith base).store = g.store := hstore
  rw [Program.solutions_eq hmax (fun _ => minLength_le) fun _ _ => Program.end_matched hg hstore,
    @Program.solutions_eq _ (env.seededWith base) [] hmax (fun _ => minLength_le)
      fun _ _ => Program.end_matched hg hstore', matched_seeded env hbase hgroups, Selector.ordered_map]
  have hmap := map_keepAfter (Solution.onto base) ((Program.compile p).selector.wantsAmong
    env.config.searchScope env.config.shortestTies) []
    ((Program.compile p).selector.ordered (·.path.length)
      ((Program.compile p).matched (env.seededWith base) []))
  simp only [Selector.wantsAmong_onto] at hmap
  exact hmap.symm

end Solutions

end GraphPatterns
