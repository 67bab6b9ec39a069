/-
What is known stays known. A datum that is null, or a list with null somewhere in it, leaves something
open; another datum refines it (`Datum.RefinedBy`) if it says the same and perhaps more. Refined operands
give refined results under every operator but the tests for null (`Datum.binary_refinedBy`,
`Datum.unary_refinedBy`), so an expression that is true or false stays so when more names are bound
(`Expr.eval_kept`).

A search binds names where nothing stood before, or what stood there anyway; only the groups of variables
under quantifiers change (`Stage.stillShows_moves`). So a condition on other variables that an element has
met is met to the end.
-/
import GraphPatterns.Proofs.Agreement
import GraphPatterns.Proofs.Equality
import GraphPatterns.Proofs.GroupVariables
import GraphPatterns.Proofs.Occurrences

namespace GraphPatterns

/-! ## Truth -/

/-- Whether one answer is open, or the other one is the same. -/
def KeptBy {α : Type} (p q : Option α) : Prop := p = none ∨ q = p

namespace KeptBy

variable {α : Type} {p p' q q' : Option Bool}

theorem none (q : Option α) : KeptBy none q := .inl rfl

theorem refl (p : Option α) : KeptBy p p := .inr rfl

theorem map {β : Type} {p q : Option α} (h : KeptBy p q) (f : α → β) : KeptBy (p.map f) (q.map f) := by
  rcases h with rfl | rfl
  · exact none _
  · exact refl _

theorem trans {p q r : Option α} (h₁ : KeptBy p q) (h₂ : KeptBy q r) : KeptBy p r := by
  rcases h₁ with rfl | rfl
  · exact none _
  · exact h₂

theorem bind {β : Type} {p q : Option α} (h : KeptBy p q) (f : α → Option β) :
    KeptBy (p.bind f) (q.bind f) := by
  rcases h with rfl | rfl
  · exact none _
  · exact refl _

theorem conjunction (hp : KeptBy p p') (hq : KeptBy q q') :
    KeptBy (Datum.conjunction p q) (Datum.conjunction p' q') := by
  rcases hp with rfl | rfl <;> rcases hq with rfl | rfl
  · exact none _
  · rcases q' with _ | _ | _
    · exact none _
    · rcases p' with _ | _ | _ <;> exact refl _
    · exact none _
  · rcases p' with _ | _ | _
    · exact none _
    · exact refl _
    · exact none _
  · exact refl _

theorem disjunction (hp : KeptBy p p') (hq : KeptBy q q') :
    KeptBy (Datum.disjunction p q) (Datum.disjunction p' q') := by
  rcases hp with rfl | rfl <;> rcases hq with rfl | rfl
  · exact none _
  · rcases q' with _ | _ | _
    · exact none _
    · exact none _
    · rcases p' with _ | _ | _ <;> exact refl _
  · rcases p' with _ | _ | _
    · exact none _
    · exact none _
    · exact refl _
  · exact refl _

theorem exclusive (hp : KeptBy p p') (hq : KeptBy q q') :
    KeptBy (Datum.exclusive p q) (Datum.exclusive p' q') := by
  rcases hp with rfl | rfl
  · exact none _
  · rcases hq with rfl | rfl
    · rcases p' with _ | _ <;> exact none _
    · exact refl _

end KeptBy

/-! ## Data -/

namespace Datum

/-- Whether a datum says all that another one says. Null says nothing, and a list says what its items
say. -/
inductive RefinedBy : Datum → Datum → Prop where
  | null (d : Datum) : RefinedBy .null d
  | same (d : Datum) : RefinedBy d d
  | list {xs ys : List Datum} (h : List.Forall₂ RefinedBy xs ys) : RefinedBy (.list xs) (.list ys)

theorem refinedBy_items (xs : List Datum) : List.Forall₂ RefinedBy xs xs :=
  List.forall₂_same.mpr fun x _ => .same x

theorem RefinedBy.of_list {xs : List Datum} {d : Datum} (h : RefinedBy (.list xs) d) :
    ∃ ys, d = .list ys ∧ List.Forall₂ RefinedBy xs ys := by
  cases h with
  | same => exact ⟨xs, rfl, refinedBy_items xs⟩
  | list h => exact ⟨_, rfl, h⟩

theorem RefinedBy.eq_of_boolean {b : Bool} {d : Datum} (h : RefinedBy (.boolean b) d) :
    d = .boolean b := by
  cases h
  rfl

theorem RefinedBy.truth {d e : Datum} (h : RefinedBy d e) : KeptBy d.truth e.truth := by
  cases h with
  | null => exact .none _
  | same => exact .refl _
  | list => exact .none _

theorem refinedBy_ofTruth {p q : Option Bool} (h : KeptBy p q) : RefinedBy (ofTruth p) (ofTruth q) := by
  rcases h with rfl | rfl
  · exact .null _
  · exact .same _

/-! ### Comparison -/

theorem equal_null (d : Datum) : equal d .null = none := by cases d <;> rfl

theorem null_equal (d : Datum) : equal .null d = none := by cases d <;> rfl

theorem keptBy_equal_list {xs xs' ys ys' : List Datum} (hxs : List.Forall₂ RefinedBy xs xs')
    (hys : List.Forall₂ RefinedBy ys ys') (h : KeptBy (equalItems xs ys) (equalItems xs' ys')) :
    KeptBy (equal (.list xs) (.list ys)) (equal (.list xs') (.list ys')) := by
  rw [equal, equal, hxs.length_eq, hys.length_eq]
  split
  · exact h
  · exact .refl _

mutual

/-- Data that are known to be equal or different stay so. -/
theorem keptBy_equal : ∀ (a : Datum) {a' b b' : Datum}, RefinedBy a a' → RefinedBy b b' →
    KeptBy (equal a b) (equal a' b')
  | .null, _, _, _, _, _ => by
    rw [null_equal]
    exact .none _
  | .list xs, _, b, _, ha, hb => by
    obtain ⟨xs', rfl, hxs⟩ := ha.of_list
    cases b with
    | list ys =>
      obtain ⟨ys', rfl, hys⟩ := hb.of_list
      exact keptBy_equal_list hxs hys (keptBy_equalItems xs hxs hys)
    | _ => exact .none _
  | .boolean _, _, b, _, .same _, hb | .integer _, _, b, _, .same _, hb | .real _, _, b, _, .same _, hb
  | .text _, _, b, _, .same _, hb | .element _, _, b, _, .same _, hb => by
    cases hb with
    | null => rw [equal_null]; exact .none _
    | same => exact .refl _
    | list => exact .none _

theorem keptBy_equalItems : ∀ (xs : List Datum) {xs' ys ys' : List Datum},
    List.Forall₂ RefinedBy xs xs' → List.Forall₂ RefinedBy ys ys' →
    KeptBy (equalItems xs ys) (equalItems xs' ys')
  | [], _, _, _, .nil, _ => .refl _
  | _ :: _, _, _, _, .cons _ _, .nil => .refl _
  | x :: xs, _, _, _, .cons hx hxs, .cons hy hys => by
    rw [equalItems_cons, equalItems_cons]
    exact (keptBy_equal x hx hy).conjunction (keptBy_equalItems xs hxs hys)

end

theorem keptBy_member {x x' : Datum} (hx : RefinedBy x x') {ys ys' : List Datum}
    (hys : List.Forall₂ RefinedBy ys ys') : KeptBy (member x ys) (member x' ys') := by
  induction hys with
  | nil => exact .refl _
  | cons hy _ ih =>
    rw [member, member]
    exact (keptBy_equal x hx hy).disjunction ih

/-! ### Operators -/

/-- An operator that gives null for null and for any list, whatever stands in it. -/
structure IsPlain (op : Datum → Datum → Datum) : Prop where
  null_left : ∀ r, op .null r = .null
  null_right : ∀ l, op l .null = .null
  list_left : ∀ xs r, op (.list xs) r = .null
  list_right : ∀ l ys, op l (.list ys) = .null

theorem IsPlain.refinedBy {op : Datum → Datum → Datum} (h : IsPlain op) {l l' r r' : Datum}
    (hl : RefinedBy l l') (hr : RefinedBy r r') : RefinedBy (op l r) (op l' r') := by
  cases hl with
  | null => rw [h.null_left]; exact .null _
  | list => rw [h.list_left]; exact .null _
  | same =>
    cases hr with
    | null => rw [h.null_right]; exact .null _
    | list => rw [h.list_right]; exact .null _
    | same => exact .same _

theorem isPlain_order (test : Ordering → Bool) :
    IsPlain fun l r => ofTruth ((order l r).map test) where
  null_left r := by cases r <;> rfl
  null_right l := by cases l <;> rfl
  list_left _ r := by cases r <;> rfl
  list_right l _ := by cases l <;> rfl

theorem isPlain_textTest (test : List Char → List Char → Bool) : IsPlain (textTest test) where
  null_left r := by cases r <;> rfl
  null_right l := by cases l <;> rfl
  list_left _ r := by cases r <;> rfl
  list_right l _ := by cases l <;> rfl

theorem isPlain_arithmetic (op : BinaryOp) : IsPlain (arithmetic op) where
  null_left r := by cases r <;> rfl
  null_right l := by cases l <;> rfl
  list_left _ r := by cases r <;> rfl
  list_right l _ := by cases l <;> rfl

/-- Operands of which more is known give a result of which no less is known. -/
theorem binary_refinedBy (op : BinaryOp) {l l' r r' : Datum} (hl : RefinedBy l l')
    (hr : RefinedBy r r') : RefinedBy (binary op l r) (binary op l' r') := by
  cases op with
  | eq => exact refinedBy_ofTruth (keptBy_equal l hl hr)
  | ne => exact refinedBy_ofTruth ((keptBy_equal l hl hr).map _)
  | lt | le | gt | ge => exact (isPlain_order _).refinedBy hl hr
  | and => exact refinedBy_ofTruth (hl.truth.conjunction hr.truth)
  | or => exact refinedBy_ofTruth (hl.truth.disjunction hr.truth)
  | xor => exact refinedBy_ofTruth (hl.truth.exclusive hr.truth)
  | add | sub | mul | div | mod => exact (isPlain_arithmetic _).refinedBy hl hr
  | contains | startsWith | endsWith =>
    rw [binary, binary]
    exact (isPlain_textTest _).refinedBy hl hr
  | isIn =>
    cases r with
    | list ys =>
      obtain ⟨ys', rfl, hys⟩ := hr.of_list
      exact refinedBy_ofTruth (keptBy_member hl hys)
    | _ => exact .null _

theorem unary_refinedBy {op : UnaryOp} (hop : op ≠ .isNull ∧ op ≠ .isNotNull) {d d' : Datum}
    (h : RefinedBy d d') : RefinedBy (unary op d) (unary op d') := by
  cases op with
  | not => exact refinedBy_ofTruth (h.truth.map _)
  | neg =>
    cases h with
    | same => exact .same _
    | _ => exact .null _
  | isNull => exact absurd rfl hop.1
  | isNotNull => exact absurd rfl hop.2

end Datum

/-! ## Expressions -/

namespace Expr

/-- Whether no part of an expression asks if something is null. -/
def AsksNoNull (e : Expr) : Prop :=
  ∀ x, ¬ IsPart (.unary .isNull x) e ∧ ¬ IsPart (.unary .isNotNull x) e

/-- Whether the names in an expression that stand for something in one scope stand for it in another. -/
def ShowsIn (e : Expr) (s t : Scope) : Prop :=
  ∀ name ∈ e.vars, KeptBy (s.lookup name) (t.lookup name)

theorem AsksNoNull.part {x e : Expr} (h : e.AsksNoNull) (hpart : IsPart x e) : x.AsksNoNull :=
  fun y => ⟨fun hy => (h y).1 (hy.trans hpart), fun hy => (h y).2 (hy.trans hpart)⟩

theorem ShowsIn.part {x e : Expr} {s t : Scope} (h : e.ShowsIn s t) (hpart : IsPart x e) :
    x.ShowsIn s t :=
  fun name hname => h name (readsOff_vars.subset hpart hname)

theorem AsksNoNull.operator {op : UnaryOp} {e : Expr} (h : (unary op e).AsksNoNull) :
    op ≠ .isNull ∧ op ≠ .isNotNull :=
  ⟨fun hop => (h e).1 (hop ▸ .whole), fun hop => (h e).2 (hop ▸ .whole)⟩

/-- Where more names are bound, no less is known of the value of an expression. -/
theorem eval_refinedBy (store : Store) {s t : Scope} : ∀ e : Expr, e.AsksNoNull → e.ShowsIn s t →
    Datum.RefinedBy (e.eval store s) (e.eval store t)
  | .literal v, _, _ => by
    rw [eval, eval]
    exact .same _
  | .var name, _, hshows => by
    rw [eval, eval]
    rcases hshows name (List.mem_singleton_self name) with h | h
    · rw [h]
      exact .null _
    · rw [h]
      exact .same _
  | .property name key, _, hshows => by
    rw [eval, eval]
    rcases hshows name (List.mem_singleton_self name) with h | h
    · rw [h]
      exact .null _
    · rw [h]
      exact .same _
  | .binary op l r, hnull, hshows => by
    rw [eval, eval]
    exact Datum.binary_refinedBy op
      (l.eval_refinedBy store (hnull.part (.left .whole)) (hshows.part (.left .whole)))
      (r.eval_refinedBy store (hnull.part (.right .whole)) (hshows.part (.right .whole)))
  | .unary op e, hnull, hshows => by
    rw [eval, eval]
    exact Datum.unary_refinedBy hnull.operator
      (e.eval_refinedBy store (hnull.part (.operand .whole)) (hshows.part (.operand .whole)))
  | .list items, hnull, hshows => by
    rw [eval_list, eval_list]
    refine .list (List.forall₂_map_left_iff.mpr (List.forall₂_map_right_iff.mpr ?_))
    exact List.forall₂_same.mpr fun x hx =>
      x.eval_refinedBy store (hnull.part (.item hx .whole)) (hshows.part (.item hx .whole))

theorem eval_boolean_of_shows {store : Store} {s t : Scope} {e : Expr} (hnull : e.AsksNoNull)
    (hshows : e.ShowsIn s t) {b : Bool} (h : e.eval store s = .boolean b) :
    e.eval store t = .boolean b :=
  (h ▸ e.eval_refinedBy store hnull hshows).eq_of_boolean

end Expr

/-! ## Searches -/

namespace Bindings

variable {names : List String} {seed own later : Bindings} {name : String}

/-- What a name stands for, among bindings or else in the seed, it stands for later too, some names left
out. -/
def StillShows (names : List String) (seed own later : Bindings) : Prop :=
  ∀ name ∉ names, KeptBy ((own.get? name).or (seed.get? name)) ((later.get? name).or (seed.get? name))

theorem StillShows.refl (names : List String) (seed own : Bindings) : StillShows names seed own own :=
  fun _ _ => .refl _

theorem StillShows.trans {last : Bindings} (h₁ : StillShows names seed own later)
    (h₂ : StillShows names seed later last) : StillShows names seed own last :=
  fun name hname => (h₁ name hname).trans (h₂ name hname)

/-- A name is bound to what it stands for already, if it stands for anything. -/
theorem stillShows_insertNew {b : Bound} (h : KeptBy ((own.get? name).or (seed.get? name)) (some b)) :
    StillShows names seed own (own.insertNew name b) := fun other _ => by
  rw [Assoc.get?_insertNew]
  split
  · next hnew =>
    obtain ⟨-, rfl⟩ := hnew
    exact h
  · exact .refl _

theorem stillShows_bindPath? {q : Path} (h : own.bindPath? seed name q = some later) :
    StillShows names seed own later := fun other _ => by
  by_cases heq : name = other
  · subst heq
    unfold bindPath? at h
    split at h
    · split at h
      · cases h
        exact .refl _
      · cases h
    · next hnone => exact hnone ▸ .none _
  · rw [get?_bindPath? h heq]
    exact .refl _

theorem stillShows_collect (hname : name ∈ names) (x : ElementId) :
    StillShows names seed own (Thread.collect own name x) := fun other hother => by
  have hne : name ≠ other := fun heq => hother (heq ▸ hname)
  unfold Thread.collect
  split
  · rw [Assoc.get?_insert, if_neg hne]
    exact .refl _
  · rw [Assoc.get?_insert, if_neg hne]
    exact .refl _
  · exact .refl _

end Bindings

/-- An element that is tested is the one that its variable stands for already. -/
theorem Stage.stillShows_bind {env : Env} {places : List Place} {s : Stage} {l : Place} (hl : l ∈ places)
    {f : Filler} {repeated : Bool} (hf : l.filler? = some (f, repeated)) {taken : Option ElementId}
    {x : ElementId} (hagrees : f.agrees env s.bindings repeated taken x = true) :
    Bindings.StillShows (Place.groupNames places) env.seed s.bindings
      (s.bind f.name repeated x).bindings := by
  cases hname : f.name with
  | none => exact .refl _ _ _
  | some name =>
    cases repeated with
    | false =>
      refine Bindings.stillShows_insertNew ?_
      simp only [Filler.agrees, Bool.false_eq_true, if_false, hname, Option.bind_some] at hagrees
      split at hagrees
      · next there hthere =>
        rw [hthere, eq_of_beq hagrees]
        exact .refl _
      · next hnone =>
        rw [hnone]
        exact .none _
    | true =>
      have hgrouped := Place.mem_groupNames_of_filler? hl hf hname
      simp only [bind, Bool.not_true, Bool.false_eq_true, if_false]
      split
      · exact .refl _ _ _
      · exact Bindings.stillShows_collect hgrouped x

/-- **A search leaves all names as they are** that stand for something, groups left out. -/
theorem Stage.stillShows_moves (env : Env) (places : List Place) (own : Bindings) :
    Moves places (Keeps env (Bindings.StillShows (Place.groupNames places) env.seed own)) :=
  keeps_moves
    (fun _ {_ _ _} _ hl hf hadmits h =>
      h.trans (stillShows_bind hl hf (Filler.agrees_of_admits hadmits)))
    fun {_ _ _ name _ _ _} _ hclose h => by
      have hbound := Option.eq_some_of_filter_eq_some hclose
      cases name with
      | none =>
        cases hbound
        exact h
      | some name => exact h.trans (Bindings.stillShows_bindPath? hbound)

theorem Scope.keptBy_lookup {own later seed : Bindings} {name : String}
    (h : KeptBy ((own.get? name).or (seed.get? name)) ((later.get? name).or (seed.get? name)))
    (candidate : Option (String × ElementId)) (latest : Bool) :
    KeptBy (lookup ⟨own, seed, candidate, latest⟩ name) (lookup ⟨later, seed, candidate, latest⟩ name) := by
  cases candidate with
  | none => exact h.bind _
  | some tested =>
    by_cases hname : tested.1 = name
    · simp only [lookup, if_pos hname]
      exact .refl _
    · simp only [lookup, if_neg hname]
      exact h.bind _

/-- Whether a scope shows what another one shows, and perhaps more names. -/
structure Scope.GrowsTo (s t : Scope) : Prop where
  candidate : t.candidate = s.candidate
  latest : t.latest = s.latest
  lookup : ∀ name, s.lookup name = none ∨ t.lookup name = s.lookup name

/-- **An expression that is true or false stays so when more names are bound**, if it does not ask what is
null. So a condition that holds in the middle of a search holds to its end, unless a group that it reads is
added to. -/
theorem Expr.eval_kept (e : Expr) (hnull : e.AsksNoNull) :
    (∀ (store : Store) (s t : Scope), s.GrowsTo t → ∀ b, e.eval store s = .boolean b →
      e.eval store t = .boolean b) ∧
      ∀ (rest : List Factor) (c : Surroundings) (s u : Stage), u ∈ termWays rest c s →
        ∀ candidate latest,
          (∀ name ∈ e.vars, name ∈ Place.groupNames (termPlaces c.repeated rest) →
            Scope.lookup ⟨s.bindings, c.env.seed, candidate, latest⟩ name = none) →
          e.holds c.env.store ⟨s.bindings, c.env.seed, candidate, latest⟩ = true →
          e.holds c.env.store ⟨u.bindings, c.env.seed, candidate, latest⟩ = true := by
  refine ⟨fun store s t hgrows b h => ?_, fun rest c s u hu candidate latest hgroups h => ?_⟩
  · exact eval_boolean_of_shows hnull (fun name _ => hgrows.lookup name) h
  · have hshows := term_ways_of_moves (Stage.stillShows_moves c.env _ s.bindings) rest c s
      (List.Subset.refl _) u hu rfl (.refl _ _ _)
    have hscope : e.ShowsIn ⟨s.bindings, c.env.seed, candidate, latest⟩
        ⟨u.bindings, c.env.seed, candidate, latest⟩ := fun name hname => by
      by_cases hgroup : name ∈ Place.groupNames (termPlaces c.repeated rest)
      · exact .inl (hgroups name hname hgroup)
      · exact Scope.keptBy_lookup (hshows name hgroup) candidate latest
    rw [holds_iff] at h ⊢
    exact eval_boolean_of_shows hnull hscope h

/-- Which vertex `b` stands for is not known at first; but `a` is in the list already. -/
theorem Expr.eval_kept_hop :
    let e : Expr := .binary .isIn (.var "a") (.list [.var "b", .var "a"])
    let near : Scope := ⟨[("a", .vertex ⟨1⟩)], [], some ("a", .vertex ⟨1⟩), false⟩
    let far : Scope := ⟨[("a", .vertex ⟨1⟩), ("b", .vertex ⟨2⟩)], [], some ("a", .vertex ⟨1⟩), false⟩
    let rest : List Factor :=
      [.mk (.edge { direction := .right }) none, .mk (.node { name := some "b" }) none]
    let c : Surroundings := ⟨⟨Graph.hop.store, {}, []⟩, .walk, [], false⟩
    let s : Stage := ⟨⟨⟨1⟩, []⟩, near.bindings, [], 1⟩
    let u : Stage := ⟨⟨⟨1⟩, [(⟨1⟩, ⟨2⟩)]⟩, far.bindings, [], 0⟩
    e.AsksNoNull ∧ near.GrowsTo far ∧ near.lookup "b" = none ∧
      e.eval Graph.hop.store near = .boolean true ∧ e.eval Graph.hop.store far = .boolean true ∧
      u ∈ termWays rest c s ∧
      (∀ name ∈ e.vars, name ∈ Place.groupNames (termPlaces c.repeated rest) →
        Scope.lookup ⟨s.bindings, c.env.seed, near.candidate, near.latest⟩ name = none) ∧
      e.holds c.env.store ⟨s.bindings, c.env.seed, near.candidate, near.latest⟩ = true ∧
      e.holds c.env.store ⟨u.bindings, c.env.seed, near.candidate, near.latest⟩ = true := by
  intro e near far rest c s u
  have hnull : e.AsksNoNull := by simp [e, AsksNoNull]
  have hbound : Bindings.StillShows [] [] near.bindings (near.bindings.insertNew "b" (.vertex ⟨2⟩)) :=
    Bindings.stillShows_insertNew (.none _)
  have hgrows : near.GrowsTo far :=
    ⟨rfl, rfl, fun name => Scope.keptBy_lookup (hbound name List.not_mem_nil) _ _⟩
  have hways : u ∈ termWays rest c s := List.mem_singleton_self u
  have hgroups : ∀ name ∈ e.vars, name ∈ Place.groupNames (termPlaces c.repeated rest) →
      Scope.lookup ⟨s.bindings, c.env.seed, near.candidate, near.latest⟩ name = none :=
    fun _ _ hname => absurd hname List.not_mem_nil
  obtain ⟨hscopes, hsearch⟩ := e.eval_kept hnull
  exact ⟨hnull, hgrows, rfl, rfl, hscopes _ near far hgrows true rfl, hways, hgroups, rfl,
    hsearch rest c s u hways near.candidate near.latest hgroups rfl⟩

end GraphPatterns
