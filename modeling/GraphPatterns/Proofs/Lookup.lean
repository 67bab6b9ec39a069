/-
What a name is bound to. Bindings only grow, and no name comes to stand twice among them
(`Chain.growsTo`), so what a match binds to a name is what its last search has bound to it, or what
was bound before (`Join.get?_combine`). What is bound stays bound to the same, groups apart
(`Trek.persists`). Conditions see bindings through look-up only (`Expr.holds_congr`).
-/
import GraphPatterns.Proofs.Treks

namespace GraphPatterns

/-! ## Conditions -/

section Conditions

variable {store : Store} {a b : Scope}

mutual

theorem Expr.eval_congr (h : a.lookup = b.lookup) : ∀ e : Expr, e.eval store a = e.eval store b
  | .literal v => by rw [Expr.eval, Expr.eval]
  | .var name => by rw [Expr.eval, Expr.eval, h]
  | .property name key => by rw [Expr.eval, Expr.eval, h]
  | .binary op l r => by rw [Expr.eval, Expr.eval, l.eval_congr h, r.eval_congr h]
  | .unary op e => by rw [Expr.eval, Expr.eval, e.eval_congr h]
  | .list items => by rw [Expr.eval, Expr.eval, evalList_congr h items]

theorem evalList_congr (h : a.lookup = b.lookup) :
    ∀ es : List Expr, Expr.evalList store a es = Expr.evalList store b es
  | [] => by rw [Expr.evalList, Expr.evalList]
  | e :: rest => by rw [Expr.evalList, Expr.evalList, e.eval_congr h, evalList_congr h rest]

end

theorem Expr.holds_congr (h : a.lookup = b.lookup) (e : Expr) : e.holds store a = e.holds store b := by
  rw [holds, holds, e.eval_congr h]

end Conditions

/-! ## No name twice -/

/-- Bindings grow: no name is lost, and none comes to stand twice. -/
structure Bindings.GrowsTo (a b : Bindings) : Prop where
  keys : a.keys ⊆ b.keys
  nodup : a.keys.Nodup → b.keys.Nodup

namespace Bindings.GrowsTo

variable {a b c : Bindings}

theorem refl (a : Bindings) : a.GrowsTo a := ⟨List.Subset.refl _, id⟩

theorem trans (h₁ : a.GrowsTo b) (h₂ : b.GrowsTo c) : a.GrowsTo c :=
  ⟨List.Subset.trans h₁.keys h₂.keys, fun h => h₂.nodup (h₁.nodup h)⟩

theorem insert (a : Bindings) (name : String) (b : Bound) : a.GrowsTo (Assoc.insert a name b) :=
  ⟨fun _ h => Assoc.mem_keys_insert.mpr (.inr h), fun h => Assoc.nodup_keys_insert h ..⟩

theorem insertNew (a : Bindings) (name : String) (b : Bound) : a.GrowsTo (Assoc.insertNew a name b) :=
  ⟨fun _ h => Assoc.mem_keys_insertNew.mpr (.inr h), fun h => Assoc.nodup_keys_insertNew h ..⟩

theorem foldl_insertNew {α : Type} (name : α → String) (b : α → Bound) (vs : List α) (a : Bindings) :
    a.GrowsTo (vs.foldl (fun m v => m.insertNew (name v) (b v)) a) := by
  induction vs generalizing a with
  | nil => exact .refl a
  | cons v vs ih => exact (insertNew a _ _).trans (ih _)

theorem bindPath? {seed : Bindings} {name : String} {p : Path} (h : a.bindPath? seed name p = some b) :
    a.GrowsTo b := by
  unfold Bindings.bindPath? at h
  split at h
  · split at h
    · cases h
      exact .refl a
    · cases h
  · cases h
    exact insert ..

end Bindings.GrowsTo

theorem Stage.growsTo_bind (s : Stage) (name : Option String) (repeated : Bool) (x : ElementId) :
    s.bindings.GrowsTo (s.bind name repeated x).bindings := by
  unfold bind
  split
  · exact .refl _
  · split
    · exact .insertNew ..
    · split
      · exact .refl _
      · unfold Thread.collect
        split
        · exact .insert ..
        · exact .insert ..
        · exact .refl _

/-- Bindings grow with every move. -/
theorem growsTo_moves (places : List Place) :
    Moves places fun _ s u => s.bindings.GrowsTo u.bindings where
  refl _ s := .refl s.bindings
  trans h₁ h₂ := h₁.trans h₂
  node _ _ := Stage.growsTo_bind ..
  edge {_ s _ room edge} _ _ _ _ _ :=
    Stage.growsTo_bind { s with walk := s.walk.extend edge.1 edge.2, room := room } ..
  group {_ _ _ name _ _ _} _ hinside hclose := by
    refine hinside.trans ?_
    have hbound := Option.eq_some_of_filter_eq_some hclose
    cases name with
    | none =>
      cases hbound
      exact .refl _
    | some name => exact .bindPath? hbound
  again hbody := hbody

theorem Search.growsTo_solution? {env : Env} {p : Program} {t : Thread} {x : Solution}
    (h : solution? env p t = some x) : t.bindings.GrowsTo x.bindings := by
  obtain ⟨all, hclose, hx⟩ := of_solution? h
  have hall : t.bindings.GrowsTo all := of_closeGroups? hclose ▸ .foldl_insertNew ..
  rcases hx with rfl | ⟨name, later, -, hbound, rfl⟩
  · exact hall
  · exact hall.trans (.bindPath? hbound)

theorem PathPattern.Leads.growsTo {p : PathPattern} {env : Env} {base : Bindings} {t : Passage}
    {x : Solution} (h : p.Leads env base t x) : base.GrowsTo x.bindings := by
  obtain ⟨v, -, hmoves⟩ := h.strides (growsTo_moves p.places).strides
  exact hmoves.trans (Search.growsTo_solution? h.solution)

theorem PathPattern.growsTo_matched {p : PathPattern} {env : Env} {base : Bindings} {x : Solution}
    (hx : x ∈ (Program.compile p).matched env base) : base.GrowsTo x.bindings := by
  obtain ⟨t, ht⟩ := exists_leads hx
  exact ht.growsTo

theorem Trek.growsTo {env : Env} {ps : List PathPattern} {base last : Bindings} {ts : List Passage}
    (h : Trek env ps base ts last) : base.GrowsTo last := by
  induction h with
  | nil => exact .refl _
  | cons ht _ ih => exact ht.growsTo.trans ih

theorem Chain.growsTo {env : Env} {g : Graph} (hg : g.Indexed) (hstore : env.store = g.store)
    (hmax : env.config.maxSteps = none) {ps : List PathPattern} {base last : Bindings}
    {xs : List Solution} (h : Chain env ps base xs last) : base.GrowsTo last := by
  obtain ⟨ts, htrek, -⟩ := h.exists_trek hg hstore hmax
  exact htrek.growsTo

/-- What was bound last counts. -/
theorem Join.get?_combine {seed bindings : Bindings} (h : bindings.keys.Nodup) (name : String) :
    (combine seed bindings).get? name = (bindings.get? name).or (seed.get? name) := by
  induction bindings generalizing seed with
  | nil => rfl
  | cons b bindings ih =>
    obtain ⟨key, value⟩ := b
    obtain ⟨hnew, hnodup⟩ := List.nodup_cons.mp h
    have hrest := @ih (seed.insert key value) hnodup
    rw [Assoc.get?_insert] at hrest
    refine hrest.trans ?_
    by_cases hk : key = name
    · subst hk
      have hnone : Assoc.get? bindings key = none := Assoc.get?_eq_none_iff.mpr hnew
      simp [hnone, Assoc.get?]
    · simp [hk, Assoc.get?]

/-! ## What stays bound -/

/-- What is bound stays bound to the same. Only groups are added to. -/
structure Bindings.Persists (a b : Bindings) : Prop where
  get? : ∀ name bound, a.get? name = some bound → bound.asGroup? = none → b.get? name = some bound

namespace Bindings.Persists

variable {a b c : Bindings}

theorem refl (a : Bindings) : a.Persists a := ⟨fun _ _ h _ => h⟩

theorem trans (h₁ : a.Persists b) (h₂ : b.Persists c) : a.Persists c :=
  ⟨fun name bound h hgroup => h₂.get? name bound (h₁.get? name bound h hgroup) hgroup⟩

theorem insertNew (a : Bindings) (name : String) (b : Bound) :
    a.Persists (Assoc.insertNew a name b) := by
  refine ⟨fun other bound h _ => ?_⟩
  rw [Assoc.get?_insertNew, if_neg, h]
  rintro ⟨hnew, rfl⟩
  rw [Assoc.has, h] at hnew
  cases hnew

theorem foldl_insertNew {α : Type} (name : α → String) (b : α → Bound) (vs : List α) (a : Bindings) :
    a.Persists (vs.foldl (fun m v => m.insertNew (name v) (b v)) a) := by
  induction vs generalizing a with
  | nil => exact .refl a
  | cons v vs ih => exact (insertNew a _ _).trans (ih _)

theorem collect (a : Bindings) (name : String) (x : ElementId) : a.Persists (Thread.collect a name x) := by
  -- What is written over is a group, or nothing.
  have written (items : List ElementId) (hname : ∀ bound, a.get? name = some bound →
      bound.asGroup? ≠ none) : a.Persists (a.insert name (.group items)) := by
    refine ⟨fun other bound h hgroup => ?_⟩
    rw [Assoc.get?_insert, if_neg, h]
    rintro rfl
    exact hname bound h hgroup
  unfold Thread.collect
  split
  · next hnone => exact written _ fun bound h => by cases hnone.symm.trans h
  · next hitems =>
    refine written _ fun bound h => ?_
    cases hitems.symm.trans h
    exact nofun
  · exact .refl a

theorem bindPath? {seed : Bindings} {name : String} {p : Path} (h : a.bindPath? seed name p = some b) :
    a.Persists b := by
  unfold Bindings.bindPath? at h
  split at h
  · split at h
    · cases h
      exact .refl a
    · cases h
  · next hnone =>
    cases h
    refine ⟨fun other bound hother _ => ?_⟩
    rw [Assoc.get?_insert, if_neg, hother]
    rintro rfl
    cases (Option.or_eq_none_iff.mp hnone).1.symm.trans hother

theorem closeGroup? {env : Env} {sub : Path} {name : Option String} {condition : Option Expr}
    {grouped : Bool} (h : Thread.closeGroup? env a sub name condition grouped = some b) : a.Persists b := by
  have hbound := Option.eq_some_of_filter_eq_some h
  cases name with
  | none =>
    cases hbound
    exact .refl a
  | some name => exact .bindPath? hbound

end Bindings.Persists

theorem Stage.persists_bind (s : Stage) (name : Option String) (repeated : Bool) (x : ElementId) :
    s.bindings.Persists (s.bind name repeated x).bindings := by
  unfold bind
  split
  · exact .refl _
  · split
    · exact .insertNew ..
    · split
      · exact .refl _
      · exact .collect ..

theorem persists_moves (places : List Place) :
    Moves places fun _ s u => s.bindings.Persists u.bindings where
  refl _ s := .refl s.bindings
  trans h₁ h₂ := h₁.trans h₂
  node _ _ := Stage.persists_bind ..
  edge {_ s _ room edge} _ _ _ _ _ :=
    Stage.persists_bind { s with walk := s.walk.extend edge.1 edge.2, room := room } ..
  group _ hinside hclose := hinside.trans (.closeGroup? hclose)
  again hbody := hbody

theorem Search.persists_solution? {env : Env} {p : Program} {t : Thread} {x : Solution}
    (h : solution? env p t = some x) : t.bindings.Persists x.bindings := by
  obtain ⟨all, hclose, hx⟩ := of_solution? h
  have hall : t.bindings.Persists all := of_closeGroups? hclose ▸ .foldl_insertNew ..
  rcases hx with rfl | ⟨name, later, -, hbound, rfl⟩
  · exact hall
  · exact hall.trans (.bindPath? hbound)

/-- What is bound stays so along a trek. -/
theorem Trek.persists {env : Env} {ps : List PathPattern} {base last : Bindings} {ts : List Passage}
    (h : Trek env ps base ts last) : base.Persists last := by
  induction h with
  | nil => exact .refl _
  | @cons p _ _ _ _ _ _ ht _ ih =>
    obtain ⟨v, -, hmoves⟩ := ht.strides (persists_moves p.places).strides
    exact (hmoves.trans (Search.persists_solution? ht.solution)).trans ih

end GraphPatterns
