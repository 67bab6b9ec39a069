/-
What stands in a pattern, however deep: the factors of a path pattern with their addresses
(`PathExpr.Has`), and the parts of the expressions in them (`Expr.IsPart`, `LabelExpr.IsPart`).

Validation goes through lists that it reads off a pattern. The places and the quantifiers of a pattern are
those of its factors (`PathExpr.places_located`, `PathExpr.quantifiers_located`), each factor standing in
the list of them once for each of its addresses, in their order (`PathExpr.mem_located_iff`,
`PathExpr.sorted_located`); names stand in expressions as parts (`Expr.mem_vars_iff`,
`LabelExpr.mem_names_iff`).
-/
import GraphPatterns.Proofs.Validity

namespace GraphPatterns

/-! ## Parts of expressions -/

namespace LabelExpr

/-- An expression stands in another one: it is the whole, or stands in what the whole is made of. -/
inductive IsPart (e : LabelExpr) : LabelExpr → Prop where
  | whole : IsPart e e
  | negation {x : LabelExpr} (h : IsPart e x) : IsPart e (.negation x)
  | conjunction {xs : List LabelExpr} {x : LabelExpr} (hx : x ∈ xs) (h : IsPart e x) :
    IsPart e (.conjunction xs)
  | disjunction {xs : List LabelExpr} {x : LabelExpr} (hx : x ∈ xs) (h : IsPart e x) :
    IsPart e (.disjunction xs)

theorem namesOfList_eq (es : List LabelExpr) : namesOfList es = es.flatMap names := by
  induction es with
  | nil => rfl
  | cons e es ih => rw [namesOfList, List.flatMap_cons, ih]

theorem IsPart.names_subset {e x : LabelExpr} (h : IsPart e x) : e.names ⊆ x.names := by
  induction h with
  | whole => exact List.Subset.refl _
  | negation _ ih =>
    rw [names]
    exact ih
  | conjunction hx _ ih | disjunction hx _ ih =>
    rw [names, namesOfList_eq]
    exact fun _ hl => List.mem_flatMap.mpr ⟨_, hx, ih hl⟩

theorem isPart_of_mem_names {label : String} : ∀ x : LabelExpr, label ∈ x.names → IsPart (.name label) x
  | .name _, h => by
    obtain rfl := List.mem_singleton.mp h
    exact .whole
  | .wildcard, h => nomatch h
  | .negation x, h => .negation (isPart_of_mem_names x h)
  | .conjunction xs, h => by
    rw [names, namesOfList_eq] at h
    obtain ⟨x, hx, h⟩ := List.mem_flatMap.mp h
    exact .conjunction hx (isPart_of_mem_names x h)
  | .disjunction xs, h => by
    rw [names, namesOfList_eq] at h
    obtain ⟨x, hx, h⟩ := List.mem_flatMap.mp h
    exact .disjunction hx (isPart_of_mem_names x h)

theorem mem_names_iff {label : String} {x : LabelExpr} :
    label ∈ x.names ↔ IsPart (.name label) x :=
  ⟨isPart_of_mem_names x, fun h => h.names_subset (List.mem_singleton_self label)⟩

end LabelExpr

namespace Expr

/-- An expression stands in another one: it is the whole, or stands in what the whole is made of. -/
inductive IsPart (e : Expr) : Expr → Prop where
  | whole : IsPart e e
  | left {op : BinaryOp} {l r : Expr} (h : IsPart e l) : IsPart e (.binary op l r)
  | right {op : BinaryOp} {l r : Expr} (h : IsPart e r) : IsPart e (.binary op l r)
  | operand {op : UnaryOp} {x : Expr} (h : IsPart e x) : IsPart e (.unary op x)
  | item {items : List Expr} {x : Expr} (hx : x ∈ items) (h : IsPart e x) : IsPart e (.list items)

section Parts

variable {e l r x : Expr}

@[simp] theorem isPart_literal_iff {v : Value} : IsPart e (.literal v) ↔ e = .literal v :=
  ⟨fun h => by cases h; rfl, fun h => h ▸ .whole⟩

@[simp] theorem isPart_var_iff {name : String} : IsPart e (.var name) ↔ e = .var name :=
  ⟨fun h => by cases h; rfl, fun h => h ▸ .whole⟩

@[simp] theorem isPart_property_iff {name key : String} :
    IsPart e (.property name key) ↔ e = .property name key :=
  ⟨fun h => by cases h; rfl, fun h => h ▸ .whole⟩

@[simp] theorem isPart_binary_iff {op : BinaryOp} :
    IsPart e (.binary op l r) ↔ e = .binary op l r ∨ IsPart e l ∨ IsPart e r := by
  constructor
  · intro h
    cases h with
    | whole => exact .inl rfl
    | left h => exact .inr (.inl h)
    | right h => exact .inr (.inr h)
  · rintro (rfl | h | h)
    · exact .whole
    · exact .left h
    · exact .right h

@[simp] theorem isPart_unary_iff {op : UnaryOp} :
    IsPart e (.unary op x) ↔ e = .unary op x ∨ IsPart e x := by
  constructor
  · intro h
    cases h with
    | whole => exact .inl rfl
    | operand h => exact .inr h
  · rintro (rfl | h)
    · exact .whole
    · exact .operand h

@[simp] theorem isPart_list_iff {items : List Expr} :
    IsPart e (.list items) ↔ e = .list items ∨ ∃ x ∈ items, IsPart e x := by
  constructor
  · intro h
    cases h with
    | whole => exact .inl rfl
    | item hx h => exact .inr ⟨_, hx, h⟩
  · rintro (rfl | ⟨x, hx, h⟩)
    · exact .whole
    · exact .item hx h

end Parts

theorem IsPart.trans {x y e : Expr} (hx : IsPart x y) (hy : IsPart y e) : IsPart x e := by
  induction hy with
  | whole => exact hx
  | left _ ih => exact .left ih
  | right _ ih => exact .right ih
  | operand _ ih => exact .operand ih
  | item hmem _ ih => exact .item hmem ih

/-- A list that is read off an expression, operands one after the other. -/
structure ReadsOff {α : Type} (read : Expr → List α) : Prop where
  binary : ∀ op l r, read (.binary op l r) = read l ++ read r
  unary : ∀ op e, read (.unary op e) = read e
  list : ∀ items, read (.list items) = items.flatMap read

theorem readsOff_vars : ReadsOff vars where
  binary _ _ _ := by rw [vars]
  unary _ _ := by rw [vars]
  list items := by
    rw [vars]
    induction items with
    | nil => rfl
    | cons e items ih => rw [varsOfList, List.flatMap_cons, ih]

theorem readsOff_keys : ReadsOff keys where
  binary _ _ _ := by rw [keys]
  unary _ _ := by rw [keys]
  list items := by
    rw [keys]
    induction items with
    | nil => rfl
    | cons e items ih => rw [keysOfList, List.flatMap_cons, ih]

section ReadsOff

variable {α : Type} {read : Expr → List α} {a : α}

theorem ReadsOff.subset (h : ReadsOff read) {e x : Expr} (hpart : IsPart e x) : read e ⊆ read x := by
  induction hpart with
  | whole => exact List.Subset.refl _
  | left _ ih =>
    rw [h.binary]
    exact fun _ ha => List.mem_append_left _ (ih ha)
  | right _ ih =>
    rw [h.binary]
    exact fun _ ha => List.mem_append_right _ (ih ha)
  | operand _ ih =>
    rw [h.unary]
    exact ih
  | item hx _ ih =>
    rw [h.list]
    exact fun _ ha => List.mem_flatMap.mpr ⟨_, hx, ih ha⟩

theorem ReadsOff.exists_part (h : ReadsOff read) : ∀ x : Expr, a ∈ read x →
    ∃ e, IsPart e x ∧ a ∈ read e ∧
      ((∃ v, e = .literal v) ∨ (∃ name, e = .var name) ∨ ∃ name key, e = .property name key)
  | .literal v, ha => ⟨_, .whole, ha, .inl ⟨v, rfl⟩⟩
  | .var name, ha => ⟨_, .whole, ha, .inr (.inl ⟨name, rfl⟩)⟩
  | .property name key, ha => ⟨_, .whole, ha, .inr (.inr ⟨name, key, rfl⟩)⟩
  | .binary op l r, ha => by
    rw [h.binary] at ha
    rcases List.mem_append.mp ha with ha | ha
    · obtain ⟨e, hpart, hatom⟩ := h.exists_part l ha
      exact ⟨e, .left hpart, hatom⟩
    · obtain ⟨e, hpart, hatom⟩ := h.exists_part r ha
      exact ⟨e, .right hpart, hatom⟩
  | .unary op x, ha => by
    rw [h.unary] at ha
    obtain ⟨e, hpart, hatom⟩ := h.exists_part x ha
    exact ⟨e, .operand hpart, hatom⟩
  | .list items, ha => by
    rw [h.list] at ha
    obtain ⟨x, hx, ha⟩ := List.mem_flatMap.mp ha
    obtain ⟨e, hpart, hatom⟩ := h.exists_part x ha
    exact ⟨e, .item hx hpart, hatom⟩

end ReadsOff

/-- A variable stands in an expression, by itself or with a property of what it is bound to. -/
def HasVariable (e : Expr) (name : String) : Prop :=
  IsPart (.var name) e ∨ ∃ key, IsPart (.property name key) e

/-- A property key stands in an expression. -/
def HasKey (e : Expr) (key : String) : Prop := ∃ name, IsPart (.property name key) e

theorem mem_vars_iff {name : String} {e : Expr} : name ∈ e.vars ↔ e.HasVariable name := by
  constructor
  · intro h
    obtain ⟨x, hpart, hx, ⟨v, rfl⟩ | ⟨own, rfl⟩ | ⟨own, key, rfl⟩⟩ := readsOff_vars.exists_part e h
    · cases hx
    · obtain rfl := List.mem_singleton.mp hx
      exact .inl hpart
    · obtain rfl := List.mem_singleton.mp hx
      exact .inr ⟨key, hpart⟩
  · rintro (hpart | ⟨key, hpart⟩)
    · exact readsOff_vars.subset hpart (List.mem_singleton_self name)
    · exact readsOff_vars.subset hpart (List.mem_singleton_self name)

theorem mem_keys_iff {key : String} {e : Expr} : key ∈ e.keys ↔ e.HasKey key := by
  constructor
  · intro h
    obtain ⟨x, hpart, hx, ⟨v, rfl⟩ | ⟨own, rfl⟩ | ⟨own, key', rfl⟩⟩ := readsOff_keys.exists_part e h
    · cases hx
    · cases hx
    · obtain rfl := List.mem_singleton.mp hx
      exact ⟨own, hpart⟩
  · rintro ⟨name, hpart⟩
    exact readsOff_keys.subset hpart (List.mem_singleton_self key)

end Expr

/-! ## Factors -/

/-- The pattern between the parentheses of a group. -/
def Element.body? : Element → Option PathExpr
  | .group _ _ body _ => some body
  | _ => none

theorem PathExpr.sizeOf_body_lt {x body : PathExpr} {t : Term} {e : Element} {q : Option Quantifier}
    (ht : t ∈ x.terms) (hf : Factor.mk e q ∈ t) (hbody : e.body? = some body) :
    sizeOf body < sizeOf x := by
  have hinner : sizeOf body < sizeOf e := by
    cases e with
    | group name mode inner condition =>
      cases hbody
      simp
      omega
    | node f => cases hbody
    | edge pattern => cases hbody
  have hfactor : sizeOf e < sizeOf (Factor.mk e q) := by simp; omega
  have hterm := List.sizeOf_lt_of_mem hf
  have houter : sizeOf t < sizeOf x := by
    cases x with
    | term own =>
      obtain rfl := List.mem_singleton.mp ht
      simp
    | union ts | multiset ts =>
      have := List.sizeOf_lt_of_mem (show t ∈ ts from ht)
      simp
      omega
  omega

/-- Induction on the groups in a pattern: what holds of a pattern if it holds of the patterns between the
parentheses in its terms holds of every pattern. -/
theorem PathExpr.induction {motive : PathExpr → Prop}
    (step : ∀ x : PathExpr, (∀ t ∈ x.terms, ∀ e q, Factor.mk e q ∈ t → ∀ body, e.body? = some body →
      motive body) → motive x) (x : PathExpr) : motive x :=
  step x fun _ _ _ _ _ body _ => PathExpr.induction step body
termination_by sizeOf x
decreasing_by exact PathExpr.sizeOf_body_lt ‹_› ‹_› ‹_›

/-- A factor stands in a choice between terms: in one of its terms, or between the parentheses of a group
there. Its address is the number of the term and that of the factor in it, and so on inwards; the flag
says whether the factor or a group around it is repeated. -/
inductive PathExpr.Has : PathExpr → List Nat → Bool → Factor → Prop where
  | here {x : PathExpr} {i j : Nat} {t : Term} {e : Element} {q : Option Quantifier}
    (ht : x.terms[i]? = some t) (hf : t[j]? = some (.mk e q)) : Has x [i, j] q.isSome (.mk e q)
  | inside {x body : PathExpr} {i j : Nat} {t : Term} {e : Element} {q : Option Quantifier}
    {address : List Nat} {repeated : Bool} {f : Factor}
    (ht : x.terms[i]? = some t) (hf : t[j]? = some (.mk e q)) (hbody : e.body? = some body)
    (h : body.Has address repeated f) : Has x (i :: j :: address) (q.isSome || repeated) f

/-- Something with its address. -/
structure Located (α : Type) where
  address : List Nat
  item : α

/-- A factor as it stands in a pattern: by itself, or in a group that is repeated. -/
structure Occurrence where
  repeated : Bool
  factor : Factor

namespace Located

variable {α : Type}

/-- The same thing in the part with the given number of something larger. -/
def under (i : Nat) (l : Located α) : Located α := { l with address := i :: l.address }

/-- The same factor in a group that is repeated, or is not. -/
def within (repeated : Bool) (l : Located Occurrence) : Located Occurrence :=
  { l with item := { l.item with repeated := repeated || l.item.repeated } }

end Located

mutual

/-- The factors that stand in a choice between terms, from left to right, each group before those between
its parentheses. -/
def PathExpr.located : PathExpr → List (Located Occurrence)
  | .term factors => (termLocated 0 factors).map (.under 0)
  | .union terms => choiceLocated 0 terms
  | .multiset terms => choiceLocated 0 terms

def choiceLocated (i : Nat) : List (List Factor) → List (Located Occurrence)
  | [] => []
  | t :: rest => (termLocated 0 t).map (.under i) ++ choiceLocated (i + 1) rest

def termLocated (j : Nat) : List Factor → List (Located Occurrence)
  | [] => []
  | f :: rest => f.located.map (.under j) ++ termLocated (j + 1) rest

def Factor.located : Factor → List (Located Occurrence)
  | .mk e q => ⟨[], q.isSome, .mk e q⟩ :: e.located.map (.within q.isSome)

def Element.located : Element → List (Located Occurrence)
  | .node _ => []
  | .edge _ => []
  | .group _ _ body _ => body.located

end

/-! ## Addresses -/

namespace Located

variable {α β : Type}

/-- One thing stands before another one. -/
def Before (a b : Located α) : Prop := a.address < b.address

theorem before_under {a b : Located α} {i k : Nat} :
    (a.under i).Before (b.under k) ↔ i < k ∨ i = k ∧ a.Before b := List.cons_lt_cons_iff

/-- Parts in order, each with its things in order, have all their things in order. -/
theorem pairwise_parts {located : β → List (Located α)} (xs : List β) (n : Nat)
    (h : ∀ b ∈ xs, (located b).Pairwise Before) :
    ((xs.zipIdx n).flatMap fun b => (located b.1).map (.under b.2)).Pairwise Before := by
  induction xs generalizing n with
  | nil => exact .nil
  | cons b xs ih =>
    obtain ⟨hb, hxs⟩ := List.forall_mem_cons.mp h
    rw [List.zipIdx_cons, List.flatMap_cons, List.pairwise_append, List.pairwise_map]
    refine ⟨hb.imp fun h => before_under.mpr (.inr ⟨rfl, h⟩), ih _ hxs, fun l hl l' hl' => ?_⟩
    obtain ⟨l, -, rfl⟩ := List.mem_map.mp hl
    obtain ⟨b, hb, hl'⟩ := List.mem_flatMap.mp hl'
    obtain ⟨l', -, rfl⟩ := List.mem_map.mp hl'
    have := (List.mem_zipIdx hb).1
    exact before_under.mpr (.inl (by omega))

end Located

theorem termLocated_eq (j : Nat) (t : Term) :
    termLocated j t = (t.zipIdx j).flatMap fun f => f.1.located.map (.under f.2) := by
  induction t generalizing j with
  | nil => rfl
  | cons f t ih => rw [termLocated, List.zipIdx_cons, List.flatMap_cons, ih]

theorem choiceLocated_eq (i : Nat) (ts : List Term) :
    choiceLocated i ts = (ts.zipIdx i).flatMap fun t => (termLocated 0 t.1).map (.under t.2) := by
  induction ts generalizing i with
  | nil => rfl
  | cons t ts ih => rw [choiceLocated, List.zipIdx_cons, List.flatMap_cons, ih]

theorem PathExpr.located_eq (x : PathExpr) :
    x.located = x.terms.zipIdx.flatMap fun t => (termLocated 0 t.1).map (.under t.2) := by
  cases x with
  | term t =>
    rw [located]
    exact (List.flatMap_singleton ..).symm
  | union ts => rw [located, choiceLocated_eq, terms]
  | multiset ts => rw [located, choiceLocated_eq, terms]

theorem Factor.located_eq (e : Element) (q : Option Quantifier) :
    (Factor.mk e q).located =
      ⟨[], q.isSome, .mk e q⟩ :: (e.body?.elim [] PathExpr.located).map (.within q.isSome) := by
  rw [Factor.located]
  cases e <;> rfl

theorem PathExpr.mem_located {x : PathExpr} {l : Located Occurrence} :
    l ∈ x.located ↔ ∃ i t j e q, x.terms[i]? = some t ∧ t[j]? = some (.mk e q) ∧
      ∃ l' ∈ (Factor.mk e q).located, (l'.under j).under i = l := by
  rw [located_eq]
  simp only [termLocated_eq, List.mem_flatMap, List.mem_map, Prod.exists,
    List.mem_zipIdx_iff_getElem?]
  constructor
  · rintro ⟨t, i, ht, _, ⟨⟨e, q⟩, j, hf, l', hl', rfl⟩, rfl⟩
    exact ⟨i, t, j, e, q, ht, hf, l', hl', rfl⟩
  · rintro ⟨i, t, j, e, q, ht, hf, l', hl', rfl⟩
    exact ⟨t, i, ht, _, ⟨.mk e q, j, hf, l', hl', rfl⟩, rfl⟩

/-- The factors that are listed are those that stand in the pattern. -/
theorem PathExpr.mem_located_iff (x : PathExpr) :
    ∀ l, l ∈ x.located ↔ x.Has l.address l.item.repeated l.item.factor := by
  induction x using PathExpr.induction with
  | step x ih =>
    intro l
    rw [mem_located]
    constructor
    · rintro ⟨i, t, j, e, q, ht, hf, l', hl', rfl⟩
      rw [Factor.located_eq] at hl'
      rcases List.mem_cons.mp hl' with rfl | hl'
      · exact .here ht hf
      · obtain ⟨l, hl, rfl⟩ := List.mem_map.mp hl'
        cases hbody : e.body? with
        | none =>
          rw [hbody] at hl
          cases hl
        | some body =>
          rw [hbody] at hl
          have hmem := ih t (List.mem_of_getElem? ht) e q (List.mem_of_getElem? hf) body hbody l
          exact .inside ht hf hbody (hmem.mp hl)
    · obtain ⟨address, repeated, f⟩ := l
      intro h
      cases h with
      | here ht hf =>
        refine ⟨_, _, _, _, _, ht, hf, ⟨[], _, _⟩, ?_, rfl⟩
        rw [Factor.located_eq]
        exact List.mem_cons_self
      | inside ht hf hbody h =>
        have hinner : (⟨_, _, f⟩ : Located Occurrence) ∈ _ :=
          (ih _ (List.mem_of_getElem? ht) _ _ (List.mem_of_getElem? hf) _ hbody _).mpr h
        refine ⟨_, _, _, _, _, ht, hf, .within _ ⟨_, _, f⟩, ?_, rfl⟩
        rw [Factor.located_eq, hbody]
        exact List.mem_cons_of_mem _ (List.mem_map_of_mem hinner)

/-- The factors are listed in the order of their addresses. -/
theorem PathExpr.sorted_located (x : PathExpr) : x.located.Pairwise Located.Before := by
  induction x using PathExpr.induction with
  | step x ih =>
    rw [located_eq]
    refine Located.pairwise_parts _ 0 fun t ht => ?_
    rw [termLocated_eq]
    refine Located.pairwise_parts _ 0 fun f hf => ?_
    obtain ⟨e, q⟩ := f
    rw [Factor.located_eq, List.pairwise_cons]
    cases hbody : e.body? with
    | none => exact ⟨nofun, .nil⟩
    | some body =>
      have hinner := ih t ht e q hf body hbody
      refine ⟨fun l hl => ?_, List.pairwise_map.mpr hinner⟩
      obtain ⟨l', hl', rfl⟩ := List.mem_map.mp hl
      obtain ⟨_, _, _, _, _, _, _, _, _, rfl⟩ := mem_located.mp hl'
      exact List.nil_lt_cons _ _

/-! ## Lists that are read off a pattern -/

/-- What is read off a pattern factor by factor, that of a factor before that of the factors between its
parentheses, is read off its factors in the order of their addresses. -/
theorem PathExpr.eq_flatMap_located {α : Type} (read : Bool → PathExpr → List α)
    (own : Bool → Factor → List α)
    (h : ∀ r x, read r x = x.terms.flatMap fun t => t.flatMap fun f =>
      own (r || f.quantifier.isSome) f ++
        f.element.body?.elim [] (read (r || f.quantifier.isSome)))
    (x : PathExpr) : ∀ r, read r x = x.located.flatMap fun l => own (r || l.item.repeated) l.item.factor := by
  -- What is read off does not look at the numbers in the addresses.
  have unnumbered {β : Type} (xs : List β) (f : β → List α) :
      xs.zipIdx.flatMap (fun a => f a.1) = xs.flatMap f := by
    conv_rhs => rw [← List.zipIdx_map_fst 0 xs, List.flatMap_map]
  induction x using PathExpr.induction with
  | step x ih =>
    intro r
    rw [h, located_eq, List.flatMap_assoc]
    simp only [List.flatMap_map, Located.under]
    rw [unnumbered x.terms fun t => (termLocated 0 t).flatMap fun l => own (r || l.item.repeated) l.item.factor]
    refine List.flatMap_congr fun t ht => ?_
    rw [termLocated_eq, List.flatMap_assoc]
    simp only [List.flatMap_map, Located.under]
    rw [unnumbered t fun f => f.located.flatMap fun l => own (r || l.item.repeated) l.item.factor]
    refine List.flatMap_congr fun f hf => ?_
    obtain ⟨e, q⟩ := f
    rw [Factor.located_eq, List.flatMap_cons, List.flatMap_map]
    refine congrArg (own (r || q.isSome) (.mk e q) ++ ·) ?_
    cases hbody : e.body? with
    | none => simp [Factor.element, hbody]
    | some body =>
      simp only [Factor.element, Factor.quantifier, hbody, Option.elim_some, Located.within,
        ← Bool.or_assoc]
      exact ih t ht e q hf body hbody _

theorem termPlaces_eq (repeated : Bool) (t : Term) :
    termPlaces repeated t = t.flatMap (·.places repeated) := by
  induction t with
  | nil => rfl
  | cons f t ih => rw [termPlaces, List.flatMap_cons, ih]

theorem choicePlaces_eq (repeated : Bool) (ts : List Term) :
    choicePlaces repeated ts = ts.flatMap (termPlaces repeated) := by
  induction ts with
  | nil => rfl
  | cons t ts ih => rw [choicePlaces, List.flatMap_cons, ih]

/-- The place of an element. -/
def Element.place (repeated : Bool) : Element → Place
  | .node f => .node f repeated
  | .edge pattern => .edge pattern repeated
  | .group name mode _ condition => .group name (mode.getD .walk) condition repeated

theorem PathExpr.places_located (x : PathExpr) (r : Bool) :
    x.places r = x.located.flatMap fun l => [l.item.factor.element.place (r || l.item.repeated)] := by
  refine eq_flatMap_located (fun r x => x.places r) (fun r f => [f.element.place r]) (fun r x => ?_) x r
  have hchoice (ts : List Term) : choicePlaces r ts = ts.flatMap fun t => t.flatMap fun f =>
      [f.element.place (r || f.quantifier.isSome)] ++
        f.element.body?.elim [] (·.places (r || f.quantifier.isSome)) := by
    rw [choicePlaces_eq]
    refine List.flatMap_congr fun t _ => ?_
    rw [termPlaces_eq]
    refine List.flatMap_congr fun f _ => ?_
    obtain ⟨e, q⟩ := f
    rw [Factor.places]
    cases e <;> simp [Element.places, Element.place, Factor.element, Factor.quantifier, Element.body?]
  cases x with
  | term t =>
    rw [PathExpr.places, terms, ← hchoice, choicePlaces, choicePlaces, List.append_nil]
  | union ts => rw [PathExpr.places, terms, hchoice]
  | multiset ts => rw [PathExpr.places, terms, hchoice]

theorem termQuantifiers_eq (t : Term) : termQuantifiers t = t.flatMap Factor.quantifiers := by
  induction t with
  | nil => rfl
  | cons f t ih => rw [termQuantifiers, List.flatMap_cons, ih]

theorem termsQuantifiers_eq (ts : List Term) : termsQuantifiers ts = ts.flatMap termQuantifiers := by
  induction ts with
  | nil => rfl
  | cons t ts ih => rw [termsQuantifiers, List.flatMap_cons, ih]

theorem PathExpr.quantifiers_located (x : PathExpr) :
    x.quantifiers = x.located.flatMap fun l => l.item.factor.quantifier.toList := by
  refine eq_flatMap_located (fun _ x => x.quantifiers) (fun _ f => f.quantifier.toList)
    (fun _ x => ?_) x false
  have hchoice (ts : List Term) : termsQuantifiers ts = ts.flatMap fun t => t.flatMap fun f =>
      f.quantifier.toList ++ f.element.body?.elim [] quantifiers := by
    rw [termsQuantifiers_eq]
    refine List.flatMap_congr fun t _ => ?_
    rw [termQuantifiers_eq]
    refine List.flatMap_congr fun f _ => ?_
    obtain ⟨e, q⟩ := f
    rw [Factor.quantifiers]
    cases e <;> simp [Element.quantifiers, Factor.element, Factor.quantifier, Element.body?]
  cases x with
  | term t =>
    rw [quantifiers, terms, ← hchoice, termsQuantifiers, termsQuantifiers, List.append_nil]
  | union ts => rw [quantifiers, terms, hchoice]
  | multiset ts => rw [quantifiers, terms, hchoice]

end GraphPatterns
