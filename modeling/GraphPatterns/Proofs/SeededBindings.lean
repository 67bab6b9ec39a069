/-
Bindings of a search with a seed and of one without it. An element that is bound is bound in both; a path
that the seed binds is only compared with the seed, and so is missing where there is a seed
(`Bindings.hide`). What is bound lasts, groups apart (`Bindings.Lasts`), so bindings that do not agree
with a seed never come to agree with it.
-/
import GraphPatterns.Proofs.Agreement

namespace GraphPatterns

namespace Bindings

variable {names : List String} {kinds : VariableKinds} {seed own later : Bindings} {name : String}

theorem agreesOutside_concat (hname : name ∉ names) {b : Bound} :
    AgreesOutside names seed (own ++ [(name, b)]) ↔
      AgreesOutside names seed own ∧ ∀ there, seed.get? name = some there → b = there := by
  constructor
  · exact fun h => ⟨fun a ha => h a (List.mem_append_left _ ha),
      h (name, b) (List.mem_append_right _ (List.mem_singleton_self _)) hname⟩
  · rintro ⟨hown, hb⟩ a ha hout there hthere
    rcases List.mem_append.mp ha with ha | ha
    · exact hown a ha hout there hthere
    · obtain rfl := List.mem_singleton.mp ha
      exact hb there hthere

/-! ## What lasts -/

/-- What is bound stays bound to the same, some names left out. -/
def Lasts (names : List String) (own later : Bindings) : Prop := ∀ b ∈ own, b.1 ∉ names → b ∈ later

/-- What does not agree with a seed does not come to agree with it. -/
theorem Lasts.agreesOutside (h : Lasts names own later) (hlater : AgreesOutside names seed later) :
    AgreesOutside names seed own :=
  fun b hb hout => hlater b (h b hb hout) hout

theorem Lasts.refl (names : List String) (own : Bindings) : Lasts names own own := fun _ hb _ => hb

theorem Lasts.trans {last : Bindings} (h₁ : Lasts names own later) (h₂ : Lasts names later last) :
    Lasts names own last :=
  fun b hb hout => h₂ b (h₁ b hb hout) hout

theorem lasts_insertNew (own : Bindings) (name : String) (b : Bound) :
    Lasts names own (own.insertNew name b) := fun a ha _ => by
  unfold Assoc.insertNew
  split
  · exact ha
  · exact List.mem_append_left _ ha

theorem lasts_bindPath? {q : Path} (h : own.bindPath? seed name q = some later) :
    Lasts names own later := by
  unfold bindPath? at h
  split at h
  · split at h
    · cases h
      exact .refl names own
    · cases h
  · next hnone =>
    cases h
    rw [Assoc.insert_of_get?_none (Option.or_eq_none_iff.mp hnone).1]
    exact fun a ha _ => List.mem_append_left _ ha

theorem lasts_collect (own : Bindings) (hname : name ∈ names) (x : ElementId) :
    Lasts names own (Thread.collect own name x) := by
  have written (b : Bound) : Lasts names own (own.insert name b) := fun a ha hout =>
    Assoc.mem_insert_of_ne (fun heq => hout (heq ▸ hname)) ha
  unfold Thread.collect
  split
  · exact written _
  · exact written _
  · exact .refl names own

theorem lasts_foldl_insertNew (vs : Assoc String VariableKind) (own : Bindings) :
    Lasts names own (vs.foldl (fun m v => m.insertNew v.1 (.group [])) own) := by
  induction vs generalizing own with
  | nil => exact .refl names own
  | cons v vs ih => exact (lasts_insertNew own v.1 _).trans (ih _)

/-! ## What is not bound again -/

/-- Whether a search with a seed leaves a name to the seed: that of a path, which is only compared. -/
def hides (kinds : VariableKinds) (seed : Bindings) (name : String) : Bool :=
  seed.has name && kinds.get? name == some .path

/-- The bindings that are not left to the seed. -/
def hide (kinds : VariableKinds) (seed own : Bindings) : Bindings :=
  own.filter fun b => !hides kinds seed b.1

theorem get?_hide (kinds : VariableKinds) (seed own : Bindings) (name : String) :
    (hide kinds seed own).get? name = if hides kinds seed name then none else own.get? name := by
  have hget := Assoc.get?_filter own (fun key => !hides kinds seed key) name
  rw [hide, hget]
  cases hides kinds seed name <;> rfl

/-- Only paths are left to the seed. -/
theorem hides_of_kind {kind : VariableKind} (hkind : kinds.get? name = some kind) (hne : kind ≠ .path) :
    hides kinds seed name = false := by
  simp [hides, hkind, hne]

theorem hides_of_path (hkind : kinds.get? name = some .path) : hides kinds seed name = seed.has name := by
  simp [hides, hkind]

theorem hide_concat (own : Bindings) (name : String) (b : Bound) :
    hide kinds seed (own ++ [(name, b)]) =
      if hides kinds seed name then hide kinds seed own else hide kinds seed own ++ [(name, b)] := by
  cases hname : hides kinds seed name <;> simp [hide, hname]

theorem hide_insertNew (own : Bindings) (hname : hides kinds seed name = false) (b : Bound) :
    hide kinds seed (own.insertNew name b) = (hide kinds seed own).insertNew name b := by
  have hget : (hide kinds seed own).get? name = own.get? name := by
    rw [get?_hide, hname, if_neg Bool.false_ne_true]
  cases hown : own.get? name with
  | none => rw [Assoc.insertNew_of_get?_none hown, Assoc.insertNew_of_get?_none (hget.trans hown),
      hide_concat, hname, if_neg Bool.false_ne_true]
  | some there => rw [Assoc.insertNew_of_get? hown, Assoc.insertNew_of_get? (hget.trans hown)]

theorem hide_collect (own : Bindings) (hname : hides kinds seed name = false) (x : ElementId) :
    hide kinds seed (Thread.collect own name x) = Thread.collect (hide kinds seed own) name x := by
  have hget : (hide kinds seed own).get? name = own.get? name := by
    rw [get?_hide, hname, if_neg Bool.false_ne_true]
  have written (b : Bound) : hide kinds seed (own.insert name b) = (hide kinds seed own).insert name b :=
    Assoc.filter_insert own (fun key => !hides kinds seed key) (by simp [hname]) b
  unfold Thread.collect
  rw [hget]
  split
  · exact written _
  · exact written _
  · rfl

theorem bindPath?_of_visible {there : Bound} (h : (own.get? name).or (seed.get? name) = some there)
    (q : Path) : own.bindPath? seed name q = if there = .path q then some own else none := by
  rw [bindPath?, h]

theorem bindPath?_of_new (h : (own.get? name).or (seed.get? name) = none) (q : Path) :
    own.bindPath? seed name q = some (own ++ [(name, .path q)]) := by
  rw [bindPath?, h]
  exact congrArg some (Assoc.insert_of_get?_none (Option.or_eq_none_iff.mp h).1 _)

/-- A path is compared with the seed when it is bound: it is bound where it agrees with the seed, and
then it is left to the seed. -/
theorem bindPath?_hide (hkind : kinds.get? name = some .path) (hname : name ∉ names)
    (h : AgreesOutside names seed own) (q : Path) :
    (hide kinds seed own).bindPath? seed name q =
      ((own.bindPath? [] name q).filter fun later => decide (AgreesOutside names seed later)).map
        (hide kinds seed) := by
  have hhides : hides kinds seed name = (seed.get? name).isSome := hides_of_path hkind
  have hhidden := get?_hide kinds seed own name
  rw [hhides] at hhidden
  have hempty : (own.get? name).or (Assoc.get? [] name) = own.get? name := Option.or_none
  cases hown : own.get? name with
  | some b =>
    have hseed := h _ (Assoc.mem_of_get? hown) hname
    have hvisible : ((hide kinds seed own).get? name).or (seed.get? name) = some b := by
      rw [hhidden, hown]
      cases hthere : seed.get? name with
      | none => rfl
      | some there => exact congrArg some (hseed there hthere).symm
    rw [bindPath?_of_visible hvisible, bindPath?_of_visible (hempty.trans hown)]
    split
    · rw [Option.filter_some, if_pos (decide_eq_true h)]
      rfl
    · rfl
  | none =>
    have hnew : (hide kinds seed own).get? name = none := by
      rw [hhidden, hown]
      exact ite_self none
    rw [bindPath?_of_new (hempty.trans hown), Option.filter_some]
    simp only [decide_eq_true_eq, agreesOutside_concat hname, and_iff_right h]
    cases hthere : seed.get? name with
    | none =>
      have hvisible : ((hide kinds seed own).get? name).or (seed.get? name) = none := by
        rw [hnew, hthere]
        rfl
      have hfree : ∀ there, none = some there → Bound.path q = there := fun _ heq => by cases heq
      rw [bindPath?_of_new hvisible, if_pos hfree, Option.map_some, hide_concat, hhides, hthere]
      rfl
    | some there =>
      have hvisible : ((hide kinds seed own).get? name).or (seed.get? name) = some there := by
        rw [hnew, hthere]
        rfl
      have hagrees : (∀ there', some there = some there' → Bound.path q = there') ↔ there = .path q :=
        ⟨fun h => (h there rfl).symm, fun h there' heq => (Option.some.inj heq ▸ h).symm⟩
      rw [bindPath?_of_visible hvisible, if_congr hagrees rfl rfl]
      split
      · rw [Option.map_some, hide_concat, hhides, hthere]
        rfl
      · rfl

end Bindings

end GraphPatterns
