/-
What it takes for a pattern to make sense (`GraphPattern.validate_eq_ok_iff`): its quantifiers are in
order, all declarations of a variable are of one kind, what is bound before the match is of the kind that
is declared, and every name that is mentioned is known. Where there are no WHERE clauses, what is bound
before the match is not mentioned.
-/
import GraphPatterns.Proofs.Places
import Mathlib.Data.List.Induction

namespace GraphPatterns

section Checks

variable {ε α β : Type}

theorem Except.bind_eq_ok_iff {x : Except ε α} {f : α → Except ε β} {b : β} :
    (x >>= f) = .ok b ↔ ∃ a, x = .ok a ∧ f a = .ok b := by
  cases x with
  | error e => exact ⟨nofun, nofun⟩
  | ok a => exact ⟨fun h => ⟨a, rfl, h⟩, fun ⟨_, ha, hb⟩ => by cases ha; exact hb⟩

theorem forM_eq_ok_iff {check : α → Except ε Unit} {xs : List α} {u : Unit} :
    xs.forM check = .ok u ↔ ∀ x ∈ xs, check x = .ok () := by
  induction xs with
  | nil => exact ⟨nofun, fun _ => rfl⟩
  | cons x xs ih =>
    change (check x >>= fun _ => xs.forM check) = _ ↔ _
    rw [Except.bind_eq_ok_iff, List.forall_mem_cons, ← ih]
    exact ⟨fun ⟨_, hx, hxs⟩ => ⟨hx, hxs⟩, fun ⟨hx, hxs⟩ => ⟨(), hx, hxs⟩⟩

theorem Except.bind_eq_error_iff {x : Except ε α} {f : α → Except ε β} {e : ε} :
    (x >>= f) = .error e ↔ x = .error e ∨ ∃ a, x = .ok a ∧ f a = .error e := by
  cases x with
  | error e' => exact ⟨fun h => by cases h; exact .inl rfl, fun h => h.elim (fun h => by cases h; rfl) nofun⟩
  | ok a => exact ⟨fun h => .inr ⟨a, rfl, h⟩, fun h => h.elim nofun fun ⟨_, ha, he⟩ => by cases ha; exact he⟩

/-- A check that fails for a list fails for one of its members. -/
theorem exists_error_of_forM {check : α → Except ε Unit} {xs : List α} {e : ε}
    (h : xs.forM check = .error e) : ∃ x ∈ xs, check x = .error e := by
  induction xs with
  | nil => cases h
  | cons x xs ih =>
    change (check x >>= fun _ => xs.forM check) = _ at h
    rcases Except.bind_eq_error_iff.mp h with hx | ⟨_, -, hxs⟩
    · exact ⟨x, List.mem_cons_self, hx⟩
    · obtain ⟨x', hx', he⟩ := ih hxs
      exact ⟨x', List.mem_cons_of_mem x hx', he⟩

theorem exists_error_of_foldlM {step : β → α → Except ε β} {b : β} {xs : List α} {e : ε}
    (h : xs.foldlM step b = .error e) : ∃ b' x, x ∈ xs ∧ step b' x = .error e := by
  induction xs generalizing b with
  | nil => cases h
  | cons x xs ih =>
    rw [List.foldlM_cons] at h
    rcases Except.bind_eq_error_iff.mp h with hx | ⟨_, -, hxs⟩
    · exact ⟨b, x, List.mem_cons_self, hx⟩
    · obtain ⟨b', x', hx', he⟩ := ih hxs
      exact ⟨b', x', List.mem_cons_of_mem x hx', he⟩

end Checks

/-- The bounds of a quantifier are in order. -/
def Quantifier.IsOrdered (q : Quantifier) : Prop := ∀ upper, q.upper = some upper → q.lower ≤ upper

theorem Quantifier.isOrdered_of_check {q : Quantifier} (h : q.check = .ok ()) : q.IsOrdered := by
  intro upper hupper
  cases q with
  | between n m =>
    rw [check] at h
    split at h
    · cases h
    · cases hupper
      rw [lower]
      omega
  | exactly n =>
    cases hupper
    exact Nat.le_refl _
  | zeroOrMore => exact Nat.zero_le upper
  | zeroOrOne => exact Nat.zero_le upper
  | atMost m => exact Nat.zero_le upper
  | oneOrMore => cases hupper
  | atLeast n => cases hupper

namespace GraphPattern

/-- A pattern that makes sense, and the kinds of its variables. -/
structure Valid (g : GraphPattern) (store : Store) (strict : Bool) (bound kinds : VariableKinds) :
    Prop where
  quantifiers : ∀ q ∈ g.paths.flatMap (·.expr.quantifiers), q.check = .ok ()
  declarations : VariableKinds.ofDeclarations (g.paths.flatMap PathPattern.declarations) = .ok kinds
  before : ∀ entry ∈ bound, kinds.checkBound entry = .ok ()
  mentions : ∀ m ∈ g.mentions, m.check store strict kinds bound = .ok ()

/-- **What it takes for a pattern to make sense.** -/
theorem validate_eq_ok_iff {g : GraphPattern} {store : Store} {strict : Bool}
    {bound kinds : VariableKinds} :
    g.validate store strict bound = .ok kinds ↔ g.Valid store strict bound kinds := by
  simp only [validate, Except.bind_eq_ok_iff, forM_eq_ok_iff]
  constructor
  · rintro ⟨_, hquantifiers, declared, hdeclarations, _, hbound, _, hmentions, hkinds⟩
    cases hkinds
    exact ⟨hquantifiers, hdeclarations, hbound, hmentions⟩
  · rintro ⟨hquantifiers, hdeclarations, hbound, hmentions⟩
    exact ⟨(), hquantifiers, kinds, hdeclarations, (), hbound, (), hmentions, rfl⟩

/-- What is reported of a pattern that does not make sense: the first reason, the quantifiers before the
declarations, the declarations before what is bound and what is mentioned. -/
theorem validate_eq_error {g : GraphPattern} {store : Store} {strict : Bool} {bound : VariableKinds}
    {e : PatternError} (h : g.validate store strict bound = .error e) :
    (∃ q ∈ g.paths.flatMap (·.expr.quantifiers), q.check = .error e) ∨
      (∀ q ∈ g.paths.flatMap (·.expr.quantifiers), q.check = .ok ()) ∧
        (VariableKinds.ofDeclarations (g.paths.flatMap PathPattern.declarations) = .error e ∨
          ∃ kinds, VariableKinds.ofDeclarations (g.paths.flatMap PathPattern.declarations) = .ok kinds ∧
            ((∃ entry ∈ bound, kinds.checkBound entry = .error e) ∨
              ∃ m ∈ g.mentions, m.check store strict kinds bound = .error e)) := by
  rcases Except.bind_eq_error_iff.mp h with h | ⟨_, hquantifiers, h⟩
  · exact .inl (exists_error_of_forM h)
  refine .inr ⟨forM_eq_ok_iff.mp hquantifiers, ?_⟩
  rcases Except.bind_eq_error_iff.mp h with h | ⟨kinds, hkinds, h⟩
  · exact .inl h
  refine .inr ⟨kinds, hkinds, ?_⟩
  rcases Except.bind_eq_error_iff.mp h with h | ⟨_, -, h⟩
  · exact .inl (exists_error_of_forM h)
  rcases Except.bind_eq_error_iff.mp h with h | ⟨_, -, h⟩
  · exact .inr (exists_error_of_forM h)
  · cases h

/-- In a pattern that makes sense every path pattern declares each of its variables with the one kind. -/
theorem kind_of_validate {g : GraphPattern} {store : Store} {strict : Bool}
    {bound kinds : VariableKinds} (h : g.validate store strict bound = .ok kinds) :
    VariableKinds.ofDeclarations (g.paths.flatMap PathPattern.declarations) = .ok kinds :=
  (validate_eq_ok_iff.mp h).declarations

theorem isOrdered_of_validate {g : GraphPattern} {store : Store} {strict : Bool}
    {bound kinds : VariableKinds} (h : g.validate store strict bound = .ok kinds) {p : PathPattern}
    (hp : p ∈ g.paths) {q : Quantifier} (hq : q ∈ p.expr.quantifiers) : q.IsOrdered :=
  Quantifier.isOrdered_of_check ((validate_eq_ok_iff.mp h).quantifiers q (List.mem_flatMap.mpr ⟨p, hp, hq⟩))

end GraphPattern

/-- What a place declares is its variable, of its kind. -/
theorem Place.of_mem_declaration {l : Place} {name : String} {kind : VariableKind}
    (h : .variable name kind ∈ l.declaration) : l.name? = some name ∧ l.kind = kind := by
  have filler {f : Filler} {k : VariableKind} (h : .variable name kind ∈ f.declaration k) :
      f.name = some name ∧ k = kind := by
    cases hname : f.name with
    | none => simp [Filler.declaration, hname] at h
    | some own =>
      simp only [Filler.declaration, hname, List.mem_singleton, Declaration.variable.injEq] at h
      exact ⟨congrArg some h.1.symm, h.2.symm⟩
  cases l with
  | node f repeated => exact filler h
  | edge pattern repeated => exact filler h
  | group own mode condition repeated =>
    cases own with
    | none => cases h
    | some own =>
      cases repeated with
      | true => cases List.mem_singleton.mp h
      | false =>
        cases List.mem_singleton.mp h
        exact ⟨rfl, rfl⟩

namespace VariableKinds

variable {ds : List Declaration} {kinds : VariableKinds} {p : PathPattern}

theorem kind_of_name (h : ofDeclarations ds = .ok kinds) (hp : p.declarations ⊆ ds) {name : String}
    (hname : p.name = some name) : kinds.get? name = some .path := by
  have hd : .variable name .path ∈ p.declarations := by simp [PathPattern.declarations, hname]
  obtain ⟨_, _, heq, hkind⟩ := of_mem h (hp hd)
  cases heq
  exact hkind

theorem kind_of_groupName (h : ofDeclarations ds = .ok kinds) (hp : p.declarations ⊆ ds) {name : String}
    (hname : name ∈ Place.groupNames p.places) :
    ∃ kind, kinds.get? name = some kind ∧ kind.isGroup = true := by
  obtain ⟨l, hl, hgroup⟩ := List.mem_filterMap.mp hname
  obtain ⟨v, hv, rfl⟩ := Option.map_eq_some_iff.mp hgroup
  have hname := l.name?_of_groupVariable? hv
  refine ⟨l.kind, kind_of_place h hp hl hname, ?_⟩
  rw [Place.isGroup_kind hname, hv]
  rfl

theorem not_mem_groupNames_of_path (h : ofDeclarations ds = .ok kinds) (hp : p.declarations ⊆ ds)
    {name : String} (hpath : kinds.get? name = some .path) : name ∉ Place.groupNames p.places :=
  fun hname => by
    obtain ⟨kind, hkind, hgroup⟩ := kind_of_groupName h hp hname
    obtain rfl := Option.some.inj (hpath.symm.trans hkind)
    cases hgroup

theorem of_get?_declare {first next : VariableKinds} {d : Declaration} (h : first.declare d = .ok next)
    {name : String} {kind : VariableKind} (hkind : next.get? name = some kind) :
    first.get? name = some kind ∨ d = .variable name kind := by
  match d with
  | .repeatedPath other => cases h
  | .variable other kind' =>
    rw [declare] at h
    cases hthere : first.get? other with
    | none =>
      rw [hthere] at h
      cases h
      rw [Assoc.get?_insert] at hkind
      split at hkind
      · next heq =>
        cases hkind
        exact .inr (heq ▸ rfl)
      · exact .inl hkind
    | some there =>
      simp only [hthere] at h
      split at h
      · cases h
        exact .inl hkind
      · cases h

theorem declared_of_get? (h : ofDeclarations ds = .ok kinds) {name : String} {kind : VariableKind}
    (hkind : kinds.get? name = some kind) : .variable name kind ∈ ds := by
  have key : ∀ (ds : List Declaration) (first : VariableKinds), ds.foldlM declare first = .ok kinds →
      first.get? name = some kind ∨ .variable name kind ∈ ds := by
    intro ds
    induction ds with
    | nil =>
      intro first h
      cases h
      exact .inl hkind
    | cons d ds ih =>
      intro first h
      rw [List.foldlM_cons, Except.bind_eq_ok_iff] at h
      obtain ⟨next, hdeclare, h⟩ := h
      rcases ih next h with hnext | hlater
      · exact (of_get?_declare hdeclare hnext).imp_right fun hd => by
          rw [hd]
          exact List.mem_cons_self
      · exact .inr (List.mem_cons_of_mem _ hlater)
  exact (key ds [] h).resolve_left nofun

theorem ofDeclarations_concat (ds : List Declaration) (d : Declaration) :
    ofDeclarations (ds ++ [d]) = ofDeclarations ds >>= (declare · d) := by
  rw [ofDeclarations, List.foldlM_append]
  simp [ofDeclarations, List.foldlM_cons]

/-- Some declarations make sense if no variable of a sub-path is repeated and all declarations of a
variable are of one kind. -/
theorem exists_ofDeclarations_iff : (∃ kinds, ofDeclarations ds = .ok kinds) ↔
    (∀ name, .repeatedPath name ∉ ds) ∧
      ∀ name kind kind', .variable name kind ∈ ds → .variable name kind' ∈ ds → kind = kind' := by
  constructor
  · rintro ⟨kinds, h⟩
    refine ⟨fun name hd => ?_, fun name kind kind' hd hd' => ?_⟩
    · obtain ⟨_, _, heq, -⟩ := of_mem h hd
      cases heq
    · obtain ⟨_, _, heq, hget⟩ := of_mem h hd
      obtain ⟨_, _, heq', hget'⟩ := of_mem h hd'
      cases heq
      cases heq'
      exact Option.some.inj (hget.symm.trans hget')
  · rintro ⟨hpath, hone⟩
    induction ds using List.reverseRecOn with
    | nil => exact ⟨[], rfl⟩
    | append_singleton ds d ih =>
      obtain ⟨kinds, hkinds⟩ := ih (fun name hd => hpath name (List.mem_append_left _ hd))
        fun name kind kind' hd hd' =>
          hone name kind kind' (List.mem_append_left _ hd) (List.mem_append_left _ hd')
      have hlast : d ∈ ds ++ [d] := List.mem_append_right _ (List.mem_singleton_self d)
      rw [ofDeclarations_concat, hkinds]
      match d with
      | .repeatedPath name => exact absurd hlast (hpath name)
      | .variable name kind =>
        change ∃ later, declare kinds (.variable name kind) = .ok later
        rw [declare]
        cases hfirst : kinds.get? name with
        | none => exact ⟨_, rfl⟩
        | some first =>
          have hsame := hone name first kind
            (List.mem_append_left _ (declared_of_get? hkinds hfirst)) hlast
          exact ⟨kinds, if_pos hsame⟩

/-- A variable of a kind for groups is bound to a group by one of the path patterns. -/
theorem mem_groupNames_of_get? {ps : List PathPattern}
    (h : ofDeclarations (ps.flatMap PathPattern.declarations) = .ok kinds) {name : String}
    {kind : VariableKind} (hkind : kinds.get? name = some kind) (hgroup : kind.isGroup = true) :
    ∃ q ∈ ps, name ∈ Place.groupNames q.places := by
  obtain ⟨q, hq, hdeclared⟩ := List.mem_flatMap.mp (declared_of_get? h hkind)
  rw [PathPattern.declarations, q.expr.declarations_eq, List.mem_append, List.mem_flatMap] at hdeclared
  rcases hdeclared with hown | ⟨l, hl, hdeclared⟩
  · split at hown
    · cases List.mem_singleton.mp hown
      cases hgroup
    · cases hown
  · obtain ⟨hname, rfl⟩ := Place.of_mem_declaration hdeclared
    rw [Place.isGroup_kind hname, Option.isSome_iff_exists] at hgroup
    obtain ⟨v, hv⟩ := hgroup
    have hsame : v.1 = name := Option.some.inj ((l.name?_of_groupVariable? hv).symm.trans hname)
    exact ⟨q, hq, hsame ▸ Place.mem_groupNames hl hv⟩

end VariableKinds

/-! ## Mentions -/

namespace Place

/-- The WHERE clause at a place. -/
def condition? : Place → Option Expr
  | node f _ => f.condition
  | edge pattern _ => pattern.filler.condition
  | group _ _ condition _ => condition

theorem condition?_of_filler? {l : Place} {f : Filler} {repeated : Bool}
    (h : l.filler? = some (f, repeated)) : l.condition? = f.condition := by
  cases l with
  | node _ _ =>
    cases h
    rfl
  | edge _ _ =>
    cases h
    rfl
  | group _ _ _ _ => cases h

/-- The names that are mentioned at a place. -/
def mentions : Place → List Mention
  | node f _ => f.mentions
  | edge pattern _ => pattern.filler.mentions
  | group _ _ condition _ => conditionMentions condition

end Place

mutual

/-- What a pattern mentions it mentions at one of its places. -/
theorem PathExpr.mem_mentions_iff {m : Mention} : ∀ (x : PathExpr) (repeated : Bool),
    m ∈ x.mentions ↔ ∃ l ∈ x.places repeated, m ∈ l.mentions
  | .term factors, repeated => by
    rw [PathExpr.mentions, PathExpr.places, term_mem_mentions_iff]
  | .union terms, repeated => by
    rw [PathExpr.mentions, PathExpr.places, choice_mem_mentions_iff]
  | .multiset terms, repeated => by
    rw [PathExpr.mentions, PathExpr.places, choice_mem_mentions_iff]

theorem choice_mem_mentions_iff {m : Mention} : ∀ (terms : List (List Factor)) (repeated : Bool),
    m ∈ termsMentions terms ↔ ∃ l ∈ choicePlaces repeated terms, m ∈ l.mentions
  | [], repeated => by simp [termsMentions, choicePlaces]
  | t :: rest, repeated => by
    simp only [termsMentions, choicePlaces, List.mem_append, or_and_right, exists_or,
      term_mem_mentions_iff t repeated, choice_mem_mentions_iff rest repeated]

theorem term_mem_mentions_iff {m : Mention} : ∀ (factors : List Factor) (repeated : Bool),
    m ∈ termMentions factors ↔ ∃ l ∈ termPlaces repeated factors, m ∈ l.mentions
  | [], repeated => by simp [termMentions, termPlaces]
  | f :: rest, repeated => by
    simp only [termMentions, termPlaces, List.mem_append, or_and_right, exists_or,
      f.mem_mentions_iff repeated, term_mem_mentions_iff rest repeated]

theorem Factor.mem_mentions_iff {m : Mention} : ∀ (f : Factor) (repeated : Bool),
    m ∈ f.mentions ↔ ∃ l ∈ f.places repeated, m ∈ l.mentions
  | .mk e q, repeated => by rw [Factor.mentions, Factor.places, e.mem_mentions_iff]

theorem Element.mem_mentions_iff {m : Mention} : ∀ (e : Element) (repeated : Bool),
    m ∈ e.mentions ↔ ∃ l ∈ e.places repeated, m ∈ l.mentions
  | .node f, repeated => by simp [Element.mentions, Element.places, Place.mentions]
  | .edge pattern, repeated => by simp [Element.mentions, Element.places, Place.mentions]
  | .group name mode body condition, repeated => by
    rw [Element.mentions, Element.places, List.mem_append, body.mem_mentions_iff repeated, or_comm]
    simp only [List.mem_cons, exists_eq_or_imp]
    exact Iff.rfl

end

/-- No variable is mentioned at a place without a WHERE clause, so it does not matter what was bound
before the match. -/
theorem Place.check_of_bare {l : Place} (h : l.condition? = none) {m : Mention} (hm : m ∈ l.mentions)
    (store : Store) (strict : Bool) (kinds bound bound' : VariableKinds) :
    m.check store strict kinds bound = m.check store strict kinds bound' := by
  have filler {f : Filler} (hf : f.condition = none) (hm : m ∈ f.mentions) :
      ∀ name, m ≠ .variable name := fun name heq => by
    subst heq
    cases hlabel : f.label <;> simp [Filler.mentions, conditionMentions, hf, hlabel] at hm
  have hvariable : ∀ name, m ≠ .variable name := by
    cases l with
    | node f repeated => exact filler h hm
    | edge pattern repeated => exact filler h hm
    | group name mode condition repeated =>
      have hcondition : condition = none := h
      rw [mentions, hcondition] at hm
      cases hm
  match m with
  | .label name => rfl
  | .key name => rfl
  | .variable name => exact absurd rfl (hvariable name)

end GraphPatterns
