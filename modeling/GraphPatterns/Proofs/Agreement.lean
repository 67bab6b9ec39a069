/-
Agreement with what was bound before. Whatever a search binds to a name of its seed has been compared with
the seed: an element when it is tested, a path when it is bound, and a group when the match is over. Until
then a group may differ, so along the way the names of groups are left out (`outside_moves`); in the end
a solution agrees with the seed (`PathPattern.seed_agrees_matched`).
-/
import GraphPatterns.Proofs.Lookup

namespace GraphPatterns

namespace Bindings

variable {names : List String} {bound seed own later : Bindings} {name : String}

/-- Names that are bound twice are bound to the same. -/
def Agrees (base own : Bindings) : Prop :=
  ∀ b ∈ own, ∀ there, base.get? b.1 = some there → b.2 = there

/-- Names that are bound twice are bound to the same, some names left out. -/
def AgreesOutside (names : List String) (seed own : Bindings) : Prop :=
  ∀ b ∈ own, b.1 ∉ names → ∀ there, seed.get? b.1 = some there → b.2 = there

/-- What is bound there is bound in the seed too, to the same. -/
def IsPartOf (bound seed : Bindings) : Prop :=
  ∀ name there, bound.get? name = some there → seed.get? name = some there

instance (names : List String) (seed own : Bindings) : Decidable (AgreesOutside names seed own) :=
  inferInstanceAs (Decidable (∀ b ∈ own, b.1 ∉ names → ∀ there ∈ seed.get? b.1, b.2 = there))

instance (seed own : Bindings) : Decidable (seed.Agrees own) :=
  inferInstanceAs (Decidable (∀ b ∈ own, ∀ there ∈ seed.get? b.1, b.2 = there))

theorem agrees_nil (base : Bindings) : base.Agrees [] := fun _ hb => absurd hb List.not_mem_nil

theorem Agrees.outside (h : seed.Agrees own) (names : List String) : AgreesOutside names seed own :=
  fun b hb _ => h b hb

theorem agreesOutside_nil : AgreesOutside [] seed own ↔ seed.Agrees own :=
  ⟨fun h b hb => h b hb List.not_mem_nil, fun h => h.outside []⟩

theorem Agrees.part (h : seed.Agrees own) (hpart : bound.IsPartOf seed) : bound.Agrees own :=
  fun b hb there hthere => h b hb there (hpart _ _ hthere)

theorem AgreesOutside.agrees (h : AgreesOutside names bound own)
    (hnames : ∀ name ∈ names, bound.get? name = none) : bound.Agrees own := fun b hb there hthere =>
  h b hb (fun hname => Option.some_ne_none there (hthere.symm.trans (hnames _ hname))) there hthere

theorem AgreesOutside.of_mem (h : AgreesOutside names bound own) {b : Bound}
    (hlater : ∀ a ∈ later, a = (name, b) ∨ a ∈ own)
    (hb : name ∉ names → ∀ there, bound.get? name = some there → b = there) :
    AgreesOutside names bound later := fun a ha hout there hthere => by
  rcases hlater a ha with rfl | ha
  · exact hb hout there hthere
  · exact h a ha hout there hthere

theorem AgreesOutside.collect (h : AgreesOutside names bound own) (hname : name ∈ names)
    (x : ElementId) : AgreesOutside names bound (Thread.collect own name x) := by
  unfold Thread.collect
  split
  · exact h.of_mem (fun _ => Assoc.mem_insert) (absurd hname)
  · exact h.of_mem (fun _ => Assoc.mem_insert) (absurd hname)
  · exact h

/-- A path that is bound has been compared with the seed. -/
theorem AgreesOutside.bindPath? (h : AgreesOutside names bound own) (hpart : bound.IsPartOf seed)
    {q : Path} (hlater : own.bindPath? seed name q = some later) : AgreesOutside names bound later := by
  unfold Bindings.bindPath? at hlater
  split at hlater
  · split at hlater
    · cases hlater
      exact h
    · cases hlater
  · next hnone =>
    cases hlater
    refine h.of_mem (fun _ => Assoc.mem_insert) fun _ there hthere => ?_
    exact absurd ((hpart _ _ hthere).symm.trans (Option.or_eq_none_iff.mp hnone).2)
      (Option.some_ne_none there)

theorem Agrees.bindPath? (h : bound.Agrees own) (hpart : bound.IsPartOf seed) {q : Path}
    (hlater : own.bindPath? seed name q = some later) : bound.Agrees later :=
  agreesOutside_nil.mp ((h.outside []).bindPath? hpart hlater)

end Bindings

/-! ## Moves -/

section Moves

variable {env : Env} {bound : Bindings} {places : List Place}

theorem Filler.agrees_of_admits {f : Filler} {env : Env} {bindings : Bindings} {grouped : Bool}
    {taken : Option ElementId} {x : ElementId} (h : f.admits env bindings grouped taken x = true) :
    f.agrees env bindings grouped taken x = true := by
  rw [admits, Bool.and_eq_true, Bool.and_eq_true, Bool.and_eq_true] at h
  exact h.1.1.1

theorem Stage.outside_bind (hpart : bound.IsPartOf env.seed) {s : Stage} {l : Place} (hl : l ∈ places)
    {f : Filler} {repeated : Bool} (hf : l.filler? = some (f, repeated)) {taken : Option ElementId}
    {x : ElementId} (hagrees : f.agrees env s.bindings repeated taken x = true)
    (h : Bindings.AgreesOutside (Place.groupNames places) bound s.bindings) :
    Bindings.AgreesOutside (Place.groupNames places) bound (s.bind f.name repeated x).bindings := by
  cases hname : f.name with
  | none => exact h
  | some name =>
    cases repeated with
    | false =>
      refine h.of_mem (fun _ => Assoc.mem_insertNew) fun hout there hthere => ?_
      simp only [Filler.agrees, Bool.false_eq_true, if_false, hname, Option.bind_some] at hagrees
      cases hown : s.bindings.get? name with
      | none =>
        rw [hown, Option.none_or, hpart _ _ hthere] at hagrees
        exact (eq_of_beq hagrees).symm
      | some own =>
        rw [hown, Option.some_or] at hagrees
        rw [← eq_of_beq hagrees]
        exact h _ (Assoc.mem_of_get? hown) hout there hthere
    | true =>
      have hgrouped := Place.mem_groupNames_of_filler? hl hf hname
      simp only [bind, Bool.not_true, Bool.false_eq_true, if_false]
      split
      · exact h
      · exact h.collect hgrouped x

/-- **What every move binds agrees with the seed**, and with any part of it, groups left out. -/
theorem outside_moves (env : Env) (places : List Place) (hpart : bound.IsPartOf env.seed) :
    Moves places (Stage.Keeps env (Bindings.AgreesOutside (Place.groupNames places) bound)) :=
  Stage.keeps_moves
    (fun _ {_ _ _} _ hl hf hadmits h =>
      Stage.outside_bind hpart hl hf (Filler.agrees_of_admits hadmits) h)
    fun {_ _ _ name _ _ _} _ hclose h => by
      have hbound := Option.eq_some_of_filter_eq_some hclose
      cases name with
      | none =>
        cases hbound
        exact h
      | some name => exact h.bindPath? hpart hbound

end Moves

/-! ## Solutions -/

section Solutions

variable {env : Env} {p : PathPattern}

theorem Search.closeGroups?_eq (env : Env) (p : Program) (bindings : Bindings) :
    closeGroups? env p bindings =
      (some (p.groupVariables.foldl (fun m v => m.insertNew v.1 (.group [])) bindings)).filter fun all =>
        p.groupVariables.all fun v =>
          (env.seed.get? v.1).all fun seeded => all.get? v.1 == some seeded := by
  rw [closeGroups?, Option.filter_some]
  refine if_congr ?_ rfl rfl
  rw [List.all_eq_true, List.all_eq_true]
  refine forall₂_congr fun v _ => ?_
  cases env.seed.get? v.1 <;> exact Iff.rfl

theorem Search.agrees_of_closeGroups? {own all : Bindings}
    (hclose : closeGroups? env (.compile p) own = some all) (hnodup : own.keys.Nodup)
    (h : Bindings.AgreesOutside (Place.groupNames p.places) env.seed own) : env.seed.Agrees all := by
  have hall := of_closeGroups? hclose
  have hkeys : all.keys.Nodup := hall ▸ (Bindings.GrowsTo.foldl_insertNew ..).nodup hnodup
  rw [closeGroups?_eq, ← hall] at hclose
  have hgroups := List.all_eq_true.mp (Option.filter_eq_some_iff.mp hclose).2
  intro b hb there hthere
  by_cases hgroup : b.1 ∈ Place.groupNames p.places
  · obtain ⟨v, hv, hname⟩ := PathPattern.mem_groupNames.mp hgroup
    have hsame := hgroups v hv
    rw [hname, hthere, Option.all_some, Assoc.get?_of_mem hkeys hb] at hsame
    exact Option.some.inj (eq_of_beq hsame)
  · rw [hall] at hb
    rcases Assoc.mem_foldl_insertNew hb with hb | ⟨v, hv, rfl⟩
    · exact h b hb hgroup there hthere
    · exact absurd (PathPattern.mem_groupNames.mpr ⟨v, hv, rfl⟩) hgroup

/-- **What a solution binds agrees with the seed.** -/
theorem PathPattern.seed_agrees_matched {base : Bindings} (hnodup : base.keys.Nodup)
    (h : env.seed.Agrees base) {x : Solution} (hx : x ∈ (Program.compile p).matched env base) :
    env.seed.Agrees x.bindings := by
  have hpart : env.seed.IsPartOf env.seed := fun _ _ hthere => hthere
  obtain ⟨v, -, u, ⟨hgrows, houtside⟩, hx⟩ :=
    exists_of_matched ((growsTo_moves p.places).and (outside_moves env p.places hpart)) hx
  obtain ⟨all, hclose, hx⟩ := Search.of_solution? hx
  have hall : env.seed.Agrees all :=
    Search.agrees_of_closeGroups? hclose (hgrows.nodup hnodup) (houtside rfl (h.outside _))
  rcases hx with rfl | ⟨name, later, -, hbound, rfl⟩
  · exact hall
  · exact hall.bindPath? hpart hbound

end Solutions

end GraphPatterns
