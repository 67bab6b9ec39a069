/-
What is read is a pattern of the language (`GraphPattern.wellFormed_of_parse`): a parser gives back
nothing but trees of the shape its texts have (`Yields`). Repetitions pass on what their items have; where
brackets are nested, the induction is on the depth.
-/
import GraphPatterns.Proofs.ReadPatterns
import GraphPatterns.Proofs.Validity

namespace GraphPatterns

theorem Except.map_eq_ok_iff {ε α β : Type} {x : Except ε α} {f : α → β} {b : β} :
    x.map f = .ok b ↔ ∃ a, x = .ok a ∧ f a = b := by
  cases x with
  | error e =>
    constructor
    · rintro ⟨⟩
    · rintro ⟨a, ⟨⟩, -⟩
  | ok a =>
    constructor
    · exact fun h => ⟨a, rfl, Except.ok.inj h⟩
    · rintro ⟨a', ha, rfl⟩
      obtain rfl := Except.ok.inj ha
      rfl

namespace Parser

/-- Whatever the parser reads has a property. -/
def Yields {α : Type} (p : Parse α) (P : α → Prop) : Prop :=
  ∀ ⦃s : List Char⦄ ⦃a : α⦄ ⦃rest : List Char⦄, p s = .ok (a, rest) → P a

variable {α β : Type} {p : Parse α} {P : α → Prop} {s rest : List Char}

/-! ## Combinators -/

theorem Yields.map {Q : β → Prop} (h : Yields p P) {f : α → β} (hf : ∀ a, P a → Q (f a)) :
    Yields (fun s => (p s).map fun (a, s) => (f a, s)) Q := by
  intro s b rest hb
  obtain ⟨⟨a, s'⟩, ha, hfa⟩ := Except.map_eq_ok_iff.mp hb
  obtain ⟨rfl, -⟩ := Prod.mk.inj hfa
  exact hf a (h ha)

/-- Items start with an item, and go on where a comma comes next. -/
theorem of_itemsUntil_succ {close : Char} {bound : Nat} {as : List α} (hs : isAt close s = false)
    (h : itemsUntil close p (bound + 1) s = .ok (as, rest)) :
    ∃ a s' as', p s = .ok (a, s') ∧ as = a :: as' ∧
      (char? ',' s' = none → as' = [] ∧ rest = s') ∧
        ∀ s'', char? ',' s' = some s'' → itemsUntil close p bound s'' = .ok (as', rest) := by
  rw [itemsUntil, hs, if_neg Bool.false_ne_true] at h
  obtain ⟨⟨a, s'⟩, ha, h⟩ := Except.bind_eq_ok_iff.mp h
  dsimp only at h
  split at h
  · next hcomma =>
    obtain ⟨rfl, rfl⟩ := Prod.mk.inj (Except.ok.inj h)
    refine ⟨a, s', [], ha, rfl, fun _ => ⟨rfl, rfl⟩, ?_⟩
    intro s'' hsome
    rw [hcomma] at hsome
    cases hsome
  · next s'' hcomma =>
    obtain ⟨⟨as', r⟩, has', heq⟩ := Except.bind_eq_ok_iff.mp h
    obtain ⟨rfl, rfl⟩ := Prod.mk.inj (Except.ok.inj heq)
    refine ⟨a, s', as', ha, rfl, ?_, ?_⟩
    · intro hnone
      rw [hcomma] at hnone
      cases hnone
    · intro s₃ hsome
      rw [hcomma] at hsome
      cases hsome
      exact has'

theorem yields_itemsUntil (close : Char) (h : Yields p P) (bound : Nat) :
    Yields (itemsUntil close p bound) fun as => ∀ a ∈ as, P a := by
  induction bound with
  | zero =>
    intro s as rest has
    obtain ⟨rfl, -⟩ := Prod.mk.inj (Except.ok.inj has)
    exact fun a ha => (List.not_mem_nil ha).elim
  | succ bound ih =>
    intro s as rest has
    rw [itemsUntil] at has
    split at has
    · obtain ⟨rfl, -⟩ := Prod.mk.inj (Except.ok.inj has)
      exact fun a ha => (List.not_mem_nil ha).elim
    · obtain ⟨⟨a, s₁⟩, ha, has⟩ := Except.bind_eq_ok_iff.mp has
      dsimp only at has
      split at has
      · obtain ⟨rfl, -⟩ := Prod.mk.inj (Except.ok.inj has)
        exact List.forall_mem_singleton.mpr (h ha)
      · obtain ⟨⟨as', s₂⟩, has', heq⟩ := Except.bind_eq_ok_iff.mp has
        obtain ⟨rfl, -⟩ := Prod.mk.inj (Except.ok.inj heq)
        exact List.forall_mem_cons.mpr ⟨h ha, ih has'⟩

theorem yields_more (separator : List Char → Option (List Char)) (h : Yields p P) (bound : Nat) :
    Yields (more separator p bound) fun as => ∀ a ∈ as, P a := by
  induction bound with
  | zero =>
    intro s as rest has
    obtain ⟨rfl, -⟩ := Prod.mk.inj (Except.ok.inj has)
    exact fun a ha => (List.not_mem_nil ha).elim
  | succ bound ih =>
    intro s as rest has
    rw [more] at has
    split at has
    · obtain ⟨rfl, -⟩ := Prod.mk.inj (Except.ok.inj has)
      exact fun a ha => (List.not_mem_nil ha).elim
    · obtain ⟨⟨a, s₁⟩, ha, has⟩ := Except.bind_eq_ok_iff.mp has
      obtain ⟨⟨as', s₂⟩, has', heq⟩ := Except.bind_eq_ok_iff.mp has
      obtain ⟨rfl, -⟩ := Prod.mk.inj (Except.ok.inj heq)
      exact List.forall_mem_cons.mpr ⟨h ha, ih has'⟩

/-- Where a separator comes next, an item is read. -/
theorem more_ne_nil {separator : List Char → Option (List Char)} {bound : Nat} {as : List α}
    (hsep : separator s ≠ none) (hbound : 0 < bound) (h : more separator p bound s = .ok (as, rest)) :
    as ≠ [] := by
  obtain ⟨bound, rfl⟩ := Nat.exists_eq_succ_of_ne_zero hbound.ne'
  rw [more] at h
  split at h
  · next hnone => exact absurd hnone hsep
  · obtain ⟨⟨a, s₁⟩, -, h⟩ := Except.bind_eq_ok_iff.mp h
    obtain ⟨⟨as', s₂⟩, -, heq⟩ := Except.bind_eq_ok_iff.mp h
    obtain ⟨rfl, -⟩ := Prod.mk.inj (Except.ok.inj heq)
    exact List.cons_ne_nil a as'

theorem of_separated {separator : List Char → Option (List Char)} {as : List α}
    (h : separated separator p s = .ok (as, rest)) :
    ∃ a as' s', as = a :: as' ∧ p s = .ok (a, s') ∧ more separator p s'.length s' = .ok (as', rest) := by
  obtain ⟨⟨a, s₁⟩, ha, h⟩ := Except.bind_eq_ok_iff.mp h
  obtain ⟨⟨as', s₂⟩, has', heq⟩ := Except.bind_eq_ok_iff.mp h
  obtain ⟨rfl, rfl⟩ := Prod.mk.inj (Except.ok.inj heq)
  exact ⟨a, as', s₁, rfl, ha, has'⟩

theorem yields_separated (separator : List Char → Option (List Char)) (h : Yields p P) :
    Yields (separated separator p) fun as => as ≠ [] ∧ ∀ a ∈ as, P a := by
  intro s as rest has
  obtain ⟨a, as', s', rfl, ha, has'⟩ := of_separated has
  exact ⟨List.cons_ne_nil a as', List.forall_mem_cons.mpr ⟨h ha, yields_more separator h _ has'⟩⟩

theorem yields_identifier : Yields identifier IsName := fun _ _ _ h => (of_identifier h).1

theorem yields_integer : Yields integer (· ≤ Number.maxWord) := fun _ _ _ h => le_maxWord_of_integer h

/-- A name that is read is spelled like no keyword that cannot be read in its place. -/
theorem spells_eq_false {name k : String} (h : identifier s = .ok (name, rest)) (hk : keyword? k s = none) :
    spells name k = false := by
  rw [(of_identifier h).2 k] at hk
  split at hk
  · cases hk
  · next hspells => exact Bool.eq_false_iff.mpr hspells

/-! ## Expressions -/

theorem toInt_nonneg_of_readInt64? {c : Char} {r : List Char} {i : Int64} (hc : c.isDigit = true)
    (h : Number.readInt64? (c :: r) = some i) : 0 ≤ i.toInt := by
  rw [Number.readInt64?, Number.readSign_cons hc] at h
  dsimp only at h
  split at h
  · cases h
  · rw [if_neg Bool.false_ne_true] at h
    split at h
    · next hrange =>
      have hmax : Int64.maxValue.toInt = 2 ^ 63 - 1 := by decide
      obtain rfl := Option.some.inj h
      rw [Int64.toInt_ofInt_of_le (by omega) (by omega)]
      exact Int.natCast_nonneg _
    · cases h

/-- A number that starts with a digit is not negative. -/
theorem isLiteral_of_number {v : Value} (hdigit : isAtDigit s = true) (h : number s = .ok (v, rest)) :
    v.IsLiteral := by
  obtain ⟨c, r, hskip, hc⟩ : ∃ c r, skip s = c :: r ∧ c.isDigit = true := by
    rw [isAtDigit] at hdigit
    cases hs : skip s with
    | nil => rw [hs] at hdigit; cases hdigit
    | cons c r => rw [hs] at hdigit; exact ⟨c, r, rfl, hdigit⟩
  have htext : ∃ r', (numberText s).1 = c :: r' := by
    have hminus : c ≠ '-' := ne_of_test hc rfl
    rw [numberText, hskip]
    split
    · next heq => exact absurd (List.cons.inj heq).1 hminus
    · rw [List.span_eq_takeWhile_dropWhile, List.takeWhile_cons_of_pos (isNumberPart_of_isDigit hc)]
      exact ⟨_, rfl⟩
  obtain ⟨r', htext⟩ := htext
  rw [number] at h
  dsimp only at h
  rw [htext] at h
  split at h
  · next v' hv =>
    obtain ⟨rfl, -⟩ := Prod.mk.inj (Except.ok.inj h)
    split at hv
    · obtain ⟨x, -, rfl⟩ := Option.map_eq_some_iff.mp hv
      exact trivial
    · obtain ⟨i, hi, rfl⟩ := Option.map_eq_some_iff.mp hv
      rw [Value.IsLiteral]
      exact toInt_nonneg_of_readInt64? hc hi
  · cases h

theorem of_literal? {v : Value} (h : literal? s = some (v, rest)) : v = .null ∨ ∃ b, v = .boolean b := by
  rw [literal?] at h
  split at h
  · exact .inr ⟨true, (Prod.mk.inj (Option.some.inj h)).1.symm⟩
  · split at h
    · exact .inr ⟨false, (Prod.mk.inj (Option.some.inj h)).1.symm⟩
    · obtain ⟨s', -, heq⟩ := Option.map_eq_some_iff.mp h
      exact .inl (Prod.mk.inj heq).1.symm

theorem isLiteral_of_literal? {v : Value} (h : literal? s = some (v, rest)) : v.IsLiteral := by
  rcases of_literal? h with rfl | ⟨b, rfl⟩ <;> exact trivial

theorem keyword?_of_literal? (h : literal? s = none) :
    ∀ k ∈ ["true", "false", "null"], keyword? k s = none := by
  rw [literal?] at h
  split at h
  · cases h
  split at h
  · cases h
  · next _ htrue _ hfalse =>
    simp only [List.forall_mem_cons]
    exact ⟨htrue, hfalse, Option.map_eq_none_iff.mp h, List.forall_mem_nil _⟩

section

variable {operand inner : Parse Expr}

theorem yields_chain (operator : Operator) (h : Yields operand Expr.WellFormed) :
    Yields (chain operator operand) Expr.WellFormed := by
  have hfrom (bound : Nat) : ∀ left, left.WellFormed →
      Yields (chainFrom operator operand bound left) Expr.WellFormed := by
    induction bound with
    | zero =>
      intro left hleft s e rest he
      obtain ⟨rfl, -⟩ := Prod.mk.inj (Except.ok.inj he)
      exact hleft
    | succ bound ih =>
      intro left hleft s e rest he
      rw [chainFrom] at he
      split at he
      · obtain ⟨rfl, -⟩ := Prod.mk.inj (Except.ok.inj he)
        exact hleft
      · obtain ⟨⟨right, s₁⟩, hright, he⟩ := Except.bind_eq_ok_iff.mp he
        exact ih _ (by rw [Expr.WellFormed]; exact ⟨hleft, h hright⟩) he
  intro s e rest he
  obtain ⟨⟨left, s₁⟩, hleft, he⟩ := Except.bind_eq_ok_iff.mp he
  exact hfrom _ left (h hleft) he

theorem yields_prefixed (operator : List Char → Option (List Char)) (op : UnaryOp)
    (h : Yields operand Expr.WellFormed) (bound : Nat) :
    Yields (prefixed operator op operand bound) Expr.WellFormed := by
  induction bound with
  | zero => exact h
  | succ bound ih =>
    intro s e rest he
    rw [prefixed] at he
    split at he
    · exact h he
    · obtain ⟨⟨e', s₁⟩, he', heq⟩ := Except.bind_eq_ok_iff.mp he
      obtain ⟨rfl, -⟩ := Prod.mk.inj (Except.ok.inj heq)
      rw [Expr.WellFormed]
      exact ih he'

theorem wellFormed_of_reference {e : Expr} (hliteral : literal? s = none)
    (h : reference s = .ok (e, rest)) : e.WellFormed := by
  obtain ⟨⟨name, s₁⟩, hname, h⟩ := Except.bind_eq_ok_iff.mp h
  have hvariable : IsVariable name :=
    ⟨yields_identifier hname, fun k hk => spells_eq_false hname (keyword?_of_literal? hliteral k hk)⟩
  dsimp only at h
  split at h
  · obtain ⟨rfl, -⟩ := Prod.mk.inj (Except.ok.inj h)
    rw [Expr.WellFormed]
    exact hvariable
  · obtain ⟨⟨key, s₂⟩, hkey, heq⟩ := Except.bind_eq_ok_iff.mp h
    obtain ⟨rfl, -⟩ := Prod.mk.inj (Except.ok.inj heq)
    rw [Expr.WellFormed]
    exact ⟨hvariable, yields_identifier hkey⟩

theorem yields_primary (h : Yields inner Expr.WellFormed) : Yields (primary inner) Expr.WellFormed := by
  intro s e rest he
  rw [primary] at he
  split at he
  · obtain ⟨⟨e', s₁⟩, he', he⟩ := Except.bind_eq_ok_iff.mp he
    obtain ⟨s₂, -, heq⟩ := Except.bind_eq_ok_iff.mp he
    obtain ⟨rfl, -⟩ := Prod.mk.inj (Except.ok.inj heq)
    exact h he'
  split at he
  · obtain ⟨⟨items, s₁⟩, hitems, he⟩ := Except.bind_eq_ok_iff.mp he
    obtain ⟨s₂, -, heq⟩ := Except.bind_eq_ok_iff.mp he
    obtain ⟨rfl, -⟩ := Prod.mk.inj (Except.ok.inj heq)
    rw [Expr.WellFormed, Expr.allWellFormed_iff]
    exact yields_itemsUntil ']' h _ hitems
  split at he
  · obtain ⟨⟨t, s₁⟩, -, heq⟩ := Except.map_eq_ok_iff.mp he
    obtain ⟨rfl, -⟩ := Prod.mk.inj heq
    rw [Expr.WellFormed]
    trivial
  split at he
  · next hdigit =>
    obtain ⟨⟨v, s₁⟩, hv, heq⟩ := Except.map_eq_ok_iff.mp he
    obtain ⟨rfl, -⟩ := Prod.mk.inj heq
    rw [Expr.WellFormed]
    exact isLiteral_of_number hdigit hv
  split at he
  · next hliteral =>
    obtain ⟨rfl, -⟩ := Prod.mk.inj (Except.ok.inj he)
    rw [Expr.WellFormed]
    exact isLiteral_of_literal? hliteral
  · next hliteral => exact wellFormed_of_reference hliteral he

theorem yields_comparison (h : Yields inner Expr.WellFormed) :
    Yields (comparison inner) Expr.WellFormed := by
  have hsum : Yields (sum inner) Expr.WellFormed :=
    yields_chain _ (yields_chain _ fun _ _ _ he => yields_prefixed _ _ (yields_primary h) _ he)
  intro s e rest he
  obtain ⟨⟨left, s₁⟩, hleft, he⟩ := Except.bind_eq_ok_iff.mp he
  dsimp only at he
  split at he
  · obtain ⟨s₂, -, heq⟩ := Except.bind_eq_ok_iff.mp he
    obtain ⟨rfl, -⟩ := Prod.mk.inj (Except.ok.inj heq)
    rw [Expr.WellFormed]
    exact hsum hleft
  · obtain ⟨found, -, he⟩ := Except.bind_eq_ok_iff.mp he
    split at he
    · obtain ⟨rfl, -⟩ := Prod.mk.inj (Except.ok.inj he)
      exact hsum hleft
    · obtain ⟨⟨right, s₂⟩, hright, heq⟩ := Except.bind_eq_ok_iff.mp he
      obtain ⟨rfl, -⟩ := Prod.mk.inj (Except.ok.inj heq)
      rw [Expr.WellFormed]
      exact ⟨hsum hleft, hsum hright⟩

theorem yields_exprWithin (depth : Nat) : Yields (exprWithin depth) Expr.WellFormed := by
  induction depth with
  | zero =>
    rintro s e rest ⟨⟩
  | succ depth ih =>
    have hnegation : Yields (negation (exprWithin depth)) Expr.WellFormed := fun _ _ _ he =>
      yields_prefixed _ _ (yields_comparison ih) _ he
    exact yields_chain _ (yields_chain _ (yields_chain _ hnegation))

end

theorem yields_condition : Yields condition fun c => ∀ e ∈ c, e.WellFormed := by
  intro s c rest hc
  rw [condition] at hc
  split at hc
  · obtain ⟨⟨e, s₁⟩, he, heq⟩ := Except.map_eq_ok_iff.mp hc
    obtain ⟨rfl, -⟩ := Prod.mk.inj heq
    rintro e' ⟨⟩
    exact yields_exprWithin _ he
  · obtain ⟨rfl, -⟩ := Prod.mk.inj (Except.ok.inj hc)
    rintro e' ⟨⟩

/-! ## Labels -/

theorem wellFormed_joined (join : List LabelExpr → LabelExpr)
    (hjoin : ∀ es : List LabelExpr, 2 ≤ es.length → (∀ e ∈ es, e.WellFormed) → (join es).WellFormed)
    {es : List LabelExpr} (hne : es ≠ []) (hes : ∀ e ∈ es, e.WellFormed) :
    (joined join es).WellFormed := by
  obtain _ | ⟨e, _ | ⟨e', es⟩⟩ := es
  · exact absurd rfl hne
  · exact hes e List.mem_cons_self
  · exact hjoin _ (Nat.le_add_left 2 es.length) hes

section

variable {inner : Parse LabelExpr}

theorem yields_labelFactor (h : Yields inner LabelExpr.WellFormed) (bound : Nat) :
    Yields (labelFactor inner bound) LabelExpr.WellFormed := by
  induction bound with
  | zero => rintro s e rest ⟨⟩
  | succ bound ih =>
    intro s e rest he
    rw [labelFactor] at he
    split at he
    · obtain ⟨⟨e', s₁⟩, he', heq⟩ := Except.bind_eq_ok_iff.mp he
      obtain ⟨rfl, -⟩ := Prod.mk.inj (Except.ok.inj heq)
      rw [LabelExpr.WellFormed]
      exact ih he'
    split at he
    · obtain ⟨⟨e', s₁⟩, he', he⟩ := Except.bind_eq_ok_iff.mp he
      obtain ⟨s₂, -, heq⟩ := Except.bind_eq_ok_iff.mp he
      obtain ⟨rfl, -⟩ := Prod.mk.inj (Except.ok.inj heq)
      exact h he'
    split at he
    · obtain ⟨rfl, -⟩ := Prod.mk.inj (Except.ok.inj he)
      exact trivial
    · obtain ⟨⟨name, s₁⟩, hname, heq⟩ := Except.map_eq_ok_iff.mp he
      obtain ⟨rfl, -⟩ := Prod.mk.inj heq
      exact yields_identifier hname

theorem yields_labelDisjunction (h : Yields inner LabelExpr.WellFormed) :
    Yields (labelDisjunction inner) LabelExpr.WellFormed := by
  have hconjunction : Yields (labelConjunction inner) LabelExpr.WellFormed :=
    (yields_separated _ fun _ _ _ he => yields_labelFactor h _ he).map fun es hes =>
      wellFormed_joined .conjunction
        (fun es' hlength hes' => ⟨hlength, LabelExpr.allWellFormed_iff.mpr hes'⟩) hes.1 hes.2
  exact (yields_separated _ hconjunction).map fun es hes =>
    wellFormed_joined .disjunction
      (fun es' hlength hes' => ⟨hlength, LabelExpr.allWellFormed_iff.mpr hes'⟩) hes.1 hes.2

end

theorem yields_labels : Yields labels fun label => ∀ e ∈ label, e.WellFormed := by
  have hwithin (depth : Nat) : Yields (labelsWithin depth) LabelExpr.WellFormed := by
    induction depth with
    | zero => rintro s e rest ⟨⟩
    | succ depth ih => exact yields_labelDisjunction ih
  intro s label rest h
  rw [labels] at h
  split at h
  · obtain ⟨⟨e, s₁⟩, he, heq⟩ := Except.map_eq_ok_iff.mp h
    obtain ⟨rfl, -⟩ := Prod.mk.inj heq
    rintro e' ⟨⟩
    exact hwithin _ he
  · obtain ⟨rfl, -⟩ := Prod.mk.inj (Except.ok.inj h)
    rintro e' ⟨⟩

/-! ## Elements -/

theorem yields_properties : Yields properties fun ps => ∀ p ∈ ps, IsName p.1 := by
  have hproperty : Yields property fun p => IsName p.1 := by
    intro s p rest h
    obtain ⟨⟨key, s₁⟩, hkey, h⟩ := Except.bind_eq_ok_iff.mp h
    obtain ⟨s₂, -, h⟩ := Except.bind_eq_ok_iff.mp h
    obtain ⟨⟨v, s₃⟩, -, heq⟩ := Except.bind_eq_ok_iff.mp h
    obtain ⟨rfl, -⟩ := Prod.mk.inj (Except.ok.inj heq)
    exact yields_identifier hkey
  intro s ps rest h
  rw [properties] at h
  split at h
  · obtain ⟨⟨items, s₁⟩, hitems, h⟩ := Except.bind_eq_ok_iff.mp h
    obtain ⟨s₂, -, heq⟩ := Except.bind_eq_ok_iff.mp h
    obtain ⟨rfl, -⟩ := Prod.mk.inj (Except.ok.inj heq)
    exact yields_itemsUntil _ hproperty _ hitems
  · obtain ⟨rfl, -⟩ := Prod.mk.inj (Except.ok.inj h)
    exact fun p hp => (List.not_mem_nil hp).elim

theorem yields_elementName : Yields elementName fun name =>
    ∀ n ∈ name, IsName n ∧ spells n "WHERE" = false ∧ spells n "IS" = false := by
  intro s name rest h
  rw [elementName] at h
  split at h
  · next hwords =>
    simp only [Bool.and_eq_true, Option.isNone_iff_eq_none] at hwords
    obtain ⟨⟨n, s₁⟩, hn, heq⟩ := Except.map_eq_ok_iff.mp h
    obtain ⟨rfl, -⟩ := Prod.mk.inj heq
    rintro n' ⟨⟩
    exact ⟨yields_identifier hn, spells_eq_false hn hwords.1.2, spells_eq_false hn hwords.2⟩
  · obtain ⟨rfl, -⟩ := Prod.mk.inj (Except.ok.inj h)
    rintro n' ⟨⟩

theorem yields_filler : Yields filler Filler.WellFormed := by
  intro s f rest h
  obtain ⟨⟨name, s₁⟩, hname, h⟩ := Except.bind_eq_ok_iff.mp h
  obtain ⟨⟨label, s₂⟩, hlabel, h⟩ := Except.bind_eq_ok_iff.mp h
  obtain ⟨⟨ps, s₃⟩, hps, h⟩ := Except.bind_eq_ok_iff.mp h
  obtain ⟨⟨c, s₄⟩, hc, heq⟩ := Except.bind_eq_ok_iff.mp h
  obtain ⟨rfl, -⟩ := Prod.mk.inj (Except.ok.inj heq)
  exact ⟨yields_elementName hname, yields_labels hlabel, yields_properties hps, yields_condition hc⟩

theorem yields_node : Yields node Filler.WellFormed := by
  intro s n rest h
  obtain ⟨s₁, -, h⟩ := Except.bind_eq_ok_iff.mp h
  obtain ⟨⟨f, s₂⟩, hf, h⟩ := Except.bind_eq_ok_iff.mp h
  obtain ⟨s₃, -, heq⟩ := Except.bind_eq_ok_iff.mp h
  obtain ⟨rfl, -⟩ := Prod.mk.inj (Except.ok.inj heq)
  exact yields_filler hf

theorem wellFormed_of_edge? {e : EdgePattern} (h : edge? s = some (.ok (e, rest))) : e.WellFormed := by
  rw [edge?] at h
  split at h
  · obtain ⟨⟨f, s₁⟩, hf, h⟩ := Except.bind_eq_ok_iff.mp (Option.some.inj h)
    obtain ⟨s₂, -, h⟩ := Except.bind_eq_ok_iff.mp h
    split at h
    · obtain ⟨rfl, -⟩ := Prod.mk.inj (Except.ok.inj h)
      refine ⟨yields_filler hf, ?_⟩
      rintro ⟨⟩
    · cases h
  · obtain ⟨⟨d, s₁⟩, -, heq⟩ := Option.map_eq_some_iff.mp h
    obtain ⟨rfl, -⟩ := Prod.mk.inj (Except.ok.inj heq)
    refine ⟨⟨?_, ?_, ?_, ?_⟩, fun _ => rfl⟩
    · rintro n ⟨⟩
    · rintro e ⟨⟩
    · exact fun p hp => (List.not_mem_nil hp).elim
    · rintro e ⟨⟩

theorem yields_bounds : Yields bounds Quantifier.WellFormed := by
  intro s q rest h
  rw [bounds] at h
  split at h
  · obtain ⟨⟨n, s₁⟩, hn, h⟩ := Except.bind_eq_ok_iff.mp h
    dsimp only at h
    split at h
    · obtain ⟨rfl, -⟩ := Prod.mk.inj (Except.ok.inj h)
      exact yields_integer hn
    split at h
    · obtain ⟨⟨m, s₂⟩, hm, heq⟩ := Except.bind_eq_ok_iff.mp h
      obtain ⟨rfl, -⟩ := Prod.mk.inj (Except.ok.inj heq)
      exact ⟨yields_integer hn, yields_integer hm⟩
    · obtain ⟨rfl, -⟩ := Prod.mk.inj (Except.ok.inj h)
      exact yields_integer hn
  split at h
  · exact yields_integer.map (fun _ hm => hm) h
  · cases h

theorem yields_quantifier : Yields quantifier fun q => ∀ q' ∈ q, q'.WellFormed := by
  intro s q rest h
  rw [quantifier] at h
  split at h
  · obtain ⟨rfl, -⟩ := Prod.mk.inj (Except.ok.inj h)
    rintro q' ⟨⟩
    exact trivial
  split at h
  · obtain ⟨rfl, -⟩ := Prod.mk.inj (Except.ok.inj h)
    rintro q' ⟨⟩
    exact trivial
  split at h
  · obtain ⟨rfl, -⟩ := Prod.mk.inj (Except.ok.inj h)
    rintro q' ⟨⟩
    exact trivial
  split at h
  · obtain ⟨⟨q', s₁⟩, hq, h⟩ := Except.bind_eq_ok_iff.mp h
    obtain ⟨s₂, -, heq⟩ := Except.bind_eq_ok_iff.mp h
    obtain ⟨rfl, -⟩ := Prod.mk.inj (Except.ok.inj heq)
    rintro q'' ⟨⟩
    exact yields_bounds hq
  · obtain ⟨rfl, -⟩ := Prod.mk.inj (Except.ok.inj h)
    rintro q' ⟨⟩

/-! ## What stands before a path -/

theorem of_declaration? {name : String} (h : declaration? s = some (name, rest)) :
    ∃ s', identifier s = .ok (name, s') := by
  rw [declaration?] at h
  split at h
  · split at h
    · next name' s' hname =>
      obtain ⟨s'', -, heq⟩ := Option.map_eq_some_iff.mp h
      obtain ⟨rfl, -⟩ := Prod.mk.inj heq
      exact ⟨s', hname⟩
    · cases h
  · cases h

theorem of_declaration {name : Option String} (h : declaration s = (name, rest)) :
    ∀ n ∈ name, ∃ s', identifier s = .ok (n, s') := by
  rw [declaration] at h
  split at h
  · next n s' hn =>
    obtain ⟨rfl, -⟩ := Prod.mk.inj h
    rintro n' ⟨⟩
    exact of_declaration? hn
  · obtain ⟨rfl, -⟩ := Prod.mk.inj h
    rintro n' ⟨⟩

theorem yields_selector : Yields selector fun chosen => ∀ r ∈ chosen, r.WellFormed := by
  intro s chosen rest h
  rw [selector] at h
  dsimp only at h
  split at h
  · split at h
    all_goals
      obtain ⟨rfl, -⟩ := Prod.mk.inj (Except.ok.inj h)
      rintro r ⟨⟩
      exact trivial
  split at h
  · split at h
    · obtain ⟨rfl, -⟩ := Prod.mk.inj (Except.ok.inj h)
      rintro r ⟨⟩
      exact trivial
    split at h
    · obtain ⟨⟨k, s₁⟩, hk, heq⟩ := Except.map_eq_ok_iff.mp h
      obtain ⟨rfl, -⟩ := Prod.mk.inj heq
      rintro r ⟨⟩
      exact yields_integer hk
    · obtain ⟨rfl, -⟩ := Prod.mk.inj (Except.ok.inj h)
      rintro r ⟨⟩
      exact trivial
  split at h
  · split at h
    · obtain ⟨⟨k, s₁⟩, hk, heq⟩ := Except.map_eq_ok_iff.mp h
      dsimp only at heq
      split at heq
      all_goals
        obtain ⟨rfl, -⟩ := Prod.mk.inj heq
        rintro r ⟨⟩
        exact yields_integer hk
    · obtain ⟨rfl, -⟩ := Prod.mk.inj (Except.ok.inj h)
      rintro r ⟨⟩
      exact trivial
  · obtain ⟨rfl, -⟩ := Prod.mk.inj (Except.ok.inj h)
    rintro r ⟨⟩

theorem yields_selectorAndMode : Yields selectorAndMode fun r => ∀ chosen ∈ r.1, chosen.WellFormed := by
  intro s r rest h
  obtain ⟨⟨chosen, s₁⟩, hchosen, h⟩ := Except.bind_eq_ok_iff.mp h
  cases chosen with
  | some chosen =>
    obtain ⟨rfl, -⟩ := Prod.mk.inj (Except.ok.inj h)
    exact yields_selector hchosen
  | none =>
    dsimp only at h
    split at h
    · obtain ⟨⟨chosen, s₂⟩, hchosen, heq⟩ := Except.bind_eq_ok_iff.mp h
      obtain ⟨rfl, -⟩ := Prod.mk.inj (Except.ok.inj heq)
      exact yields_selector hchosen
    · obtain ⟨rfl, -⟩ := Prod.mk.inj (Except.ok.inj h)
      rintro chosen ⟨⟩

/-! ## Paths -/

section

variable {inner : Parse PathExpr}

theorem of_repeated {element : Element} {f : Factor} (h : repeated element s = .ok (f, rest)) :
    ∃ q, f = .mk element q ∧ ∀ q' ∈ q, q'.WellFormed := by
  obtain ⟨⟨q, s₁⟩, hq, heq⟩ := Except.map_eq_ok_iff.mp h
  obtain ⟨rfl, -⟩ := Prod.mk.inj heq
  exact ⟨q, rfl, yields_quantifier hq⟩

theorem of_group {element : Element} (h : group inner s = .ok (element, rest)) : ∃ name m body c s₁ s₂,
    element = .group name m body c ∧ (∀ n ∈ name, IsName n) ∧ isAt '(' s₁ = true ∧
      inner s₁ = .ok (body, s₂) ∧ ∀ e ∈ c, e.WellFormed := by
  obtain ⟨s₀, -, h⟩ := Except.bind_eq_ok_iff.mp h
  dsimp only at h
  split at h
  · cases h
  · next hat =>
    obtain ⟨⟨body, s₂⟩, hbody, h⟩ := Except.bind_eq_ok_iff.mp h
    obtain ⟨⟨c, s₃⟩, hc, h⟩ := Except.bind_eq_ok_iff.mp h
    obtain ⟨s₄, -, heq⟩ := Except.bind_eq_ok_iff.mp h
    obtain ⟨rfl, -⟩ := Prod.mk.inj (Except.ok.inj heq)
    refine ⟨_, _, body, c, _, s₂, rfl, fun n hn => ?_, by simpa using hat, hbody, yields_condition hc⟩
    obtain ⟨s', hname⟩ := of_declaration rfl n hn
    exact yields_identifier hname

/-- What a factor can be: a node and a group start with a parenthesis, and only a node is not repeated. -/
theorem of_factor? {f : Factor} (h : factor? inner s = some (.ok (f, rest))) :
    (∃ n s', node s = .ok (n, s') ∧ f = .mk (.node n) none) ∨
      (∃ element s' s'', group inner s = .ok (element, s') ∧ repeated element s' = .ok (f, s'')) ∨
      (isAt '(' s = false ∧ ∃ e s' s'', edge? s = some (.ok (e, s')) ∧
        repeated (.edge e) s' = .ok (f, s'')) := by
  rw [factor?] at h
  split at h
  · split at h
    · next element s' hgroup => exact .inr (.inl ⟨element, s', rest, hgroup, Option.some.inj h⟩)
    · obtain ⟨⟨n, s'⟩, hn, heq⟩ := Except.map_eq_ok_iff.mp (Option.some.inj h)
      obtain ⟨rfl, -⟩ := Prod.mk.inj heq
      exact .inl ⟨n, s', hn, rfl⟩
  · next hat =>
    obtain ⟨result, hedge, h⟩ := Option.map_eq_some_iff.mp h
    obtain ⟨⟨e, s'⟩, rfl, hrepeated⟩ := Except.bind_eq_ok_iff.mp h
    exact .inr (.inr ⟨by simpa using hat, e, s', rest, hedge, hrepeated⟩)

/-- A factor that starts with a parenthesis is no edge. -/
theorem ne_edge_of_factor? {f : Factor} (hs : isAt '(' s = true)
    (h : factor? inner s = some (.ok (f, rest))) :
    ∃ element q, f = .mk element q ∧ ∀ e, element ≠ .edge e := by
  rcases of_factor? h with ⟨n, s', -, rfl⟩ | ⟨element, s', s'', hgroup, hrepeated⟩ | ⟨hfalse, -⟩
  · refine ⟨.node n, none, rfl, ?_⟩
    rintro e ⟨⟩
  · obtain ⟨name, m, body, c, s₁, s₂, rfl, -⟩ := of_group hgroup
    obtain ⟨q, rfl, -⟩ := of_repeated hrepeated
    refine ⟨_, q, rfl, ?_⟩
    rintro e ⟨⟩
  · rw [hs] at hfalse
    cases hfalse

theorem of_term {t : Term} (h : term inner s = .ok (t, rest)) :
    t ≠ [] ∧ ∃ bound s', factors inner (bound + 1) s = .ok (t, s') := by
  obtain ⟨⟨fs, s₁⟩, hfs, h⟩ := Except.bind_eq_ok_iff.mp h
  dsimp only at h
  split at h
  · cases h
  · next hne =>
    obtain ⟨rfl, -⟩ := Prod.mk.inj (Except.ok.inj h)
    exact ⟨fun heq => hne (List.isEmpty_iff.mpr heq), s.length, s₁, hfs⟩

theorem of_factors_succ {bound : Nat} {fs : List Factor} (h : factors inner (bound + 1) s = .ok (fs, rest)) :
    fs = [] ∨ ∃ f fs' s', fs = f :: fs' ∧ factor? inner s = some (.ok (f, s')) ∧
      factors inner bound s' = .ok (fs', rest) := by
  rw [factors] at h
  split at h
  · exact .inl (Prod.mk.inj (Except.ok.inj h)).1.symm
  · next result hresult =>
    obtain ⟨⟨f, s'⟩, rfl, hmore⟩ := Except.bind_eq_ok_iff.mp h
    obtain ⟨⟨fs', s₂⟩, hfs', heq⟩ := Except.bind_eq_ok_iff.mp hmore
    obtain ⟨rfl, rfl⟩ := Prod.mk.inj (Except.ok.inj heq)
    exact .inr ⟨f, fs', s', rfl, hresult, hfs'⟩

/-- The alternatives of a choice: one term, or several with bars between them. -/
theorem of_pathExprOver {e : PathExpr} (h : pathExprOver inner s = .ok (e, rest)) :
    ∃ t ts s', term inner s = .ok (t, s') ∧ e.terms = t :: ts ∧
      (e = .term t ∨ ts ≠ [] ∧ (e = .union (t :: ts) ∨ e = .multiset (t :: ts)) ∧
        ∃ separator bound s₁ s₂, more separator (term inner) bound s₁ = .ok (ts, s₂)) := by
  have hlength {c : Char} {s r : List Char} (h : char? c s = some r) : 0 < s.length := by
    cases s with
    | nil => cases h
    | cons d s => exact Nat.zero_lt_succ _
  obtain ⟨⟨t, s₁⟩, ht, h⟩ := Except.bind_eq_ok_iff.mp h
  dsimp only at h
  split at h
  · next r htext =>
    obtain ⟨⟨ts, s₂⟩, hts, h⟩ := Except.bind_eq_ok_iff.mp h
    dsimp only at h
    split at h
    · cases h
    · obtain ⟨rfl, -⟩ := Prod.mk.inj (Except.ok.inj h)
      have hpos : 0 < s₁.length := by
        cases s₁ with
        | nil => cases htext
        | cons d s => exact Nat.zero_lt_succ _
      have hne := more_ne_nil (htext ▸ Option.some_ne_none r) hpos hts
      exact ⟨t, ts, s₁, ht, rfl, .inr ⟨hne, .inr rfl, _, _, s₁, s₂, hts⟩⟩
  · next htext =>
    split at h
    · next r hbar =>
      obtain ⟨⟨ts, s₂⟩, hts, h⟩ := Except.bind_eq_ok_iff.mp h
      dsimp only at h
      split at h
      · cases h
      · obtain ⟨rfl, -⟩ := Prod.mk.inj (Except.ok.inj h)
        have hunion : unionBar s₁ ≠ none := by
          rw [unionBar, htext, if_neg (by decide), hbar]
          exact Option.some_ne_none r
        exact ⟨t, ts, s₁, ht, rfl,
          .inr ⟨more_ne_nil hunion (hlength hbar) hts, .inl rfl, _, _, s₁, s₂, hts⟩⟩
    · obtain ⟨rfl, -⟩ := Prod.mk.inj (Except.ok.inj h)
      exact ⟨t, [], s₁, ht, rfl, .inl rfl⟩

/-- Paths that start with a parenthesis start with a node or a group. -/
theorem startsWithParenthesis_of_pathExprWithin {depth : Nat} {e : PathExpr} (hs : isAt '(' s = true)
    (h : pathExprWithin depth s = .ok (e, rest)) : e.startsWithParenthesis = true := by
  cases depth with
  | zero => cases h
  | succ depth =>
    obtain ⟨t, ts, s', ht, hterms, -⟩ := of_pathExprOver h
    obtain ⟨hne, bound, s₁, hfactors⟩ := of_term ht
    obtain rfl | ⟨f, fs, s₂, rfl, hf, -⟩ := of_factors_succ hfactors
    · exact absurd rfl hne
    · obtain ⟨element, q, rfl, hedge⟩ := ne_edge_of_factor? hs hf
      rw [PathExpr.startsWithParenthesis, hterms]
      cases element with
      | node n => rfl
      | edge e => exact absurd rfl (hedge e)
      | group name m body c => rfl

theorem wellFormed_of_factor? {depth : Nat} (h : Yields (pathExprWithin depth) PathExpr.WellFormed)
    {f : Factor} (hf : factor? (pathExprWithin depth) s = some (.ok (f, rest))) : f.WellFormed := by
  rcases of_factor? hf with
    ⟨n, s', hn, rfl⟩ | ⟨element, s', s'', hgroup, hrepeated⟩ | ⟨-, e, s', s'', he, hrepeated⟩
  · rw [Factor.WellFormed, Element.WellFormed]
    refine ⟨yields_node hn, ?_, fun _ _ => rfl⟩
    rintro q ⟨⟩
  · obtain ⟨name, m, body, c, s₁, s₂, rfl, hname, hat, hbody, hc⟩ := of_group hgroup
    obtain ⟨q, rfl, hq⟩ := of_repeated hrepeated
    rw [Factor.WellFormed, Element.WellFormed]
    refine ⟨⟨hname, ⟨startsWithParenthesis_of_pathExprWithin hat hbody, h hbody⟩, hc⟩, hq, ?_⟩
    rintro n ⟨⟩
  · obtain ⟨q, rfl, hq⟩ := of_repeated hrepeated
    rw [Factor.WellFormed, Element.WellFormed]
    refine ⟨wellFormed_of_edge? he, hq, ?_⟩
    rintro n ⟨⟩

theorem yields_term {depth : Nat} (h : Yields (pathExprWithin depth) PathExpr.WellFormed) :
    Yields (term (pathExprWithin depth)) fun t => t ≠ [] ∧ TermWellFormed t := by
  have hfactors (bound : Nat) : Yields (factors (pathExprWithin depth) bound) TermWellFormed := by
    induction bound with
    | zero =>
      intro s fs rest hfs
      obtain ⟨rfl, -⟩ := Prod.mk.inj (Except.ok.inj hfs)
      rw [TermWellFormed]
      trivial
    | succ bound ih =>
      intro s fs rest hfs
      obtain rfl | ⟨f, fs, s', rfl, hf, hfs⟩ := of_factors_succ hfs
      · rw [TermWellFormed]
        trivial
      · rw [TermWellFormed]
        exact ⟨wellFormed_of_factor? h hf, ih hfs⟩
  intro s t rest ht
  obtain ⟨hne, bound, s', hfs⟩ := of_term ht
  exact ⟨hne, hfactors _ hfs⟩

theorem yields_pathExprWithin (depth : Nat) : Yields (pathExprWithin depth) PathExpr.WellFormed := by
  induction depth with
  | zero => rintro s e rest ⟨⟩
  | succ depth ih =>
    intro s e rest h
    obtain ⟨t, ts, s', ht, -, hkind⟩ := of_pathExprOver h
    have hfirst := yields_term ih ht
    rcases hkind with rfl | ⟨hne, hkind, separator, bound, s₁, s₂, hts⟩
    · rw [PathExpr.WellFormed]
      exact hfirst
    · have hall : 2 ≤ (t :: ts).length ∧ TermsWellFormed (t :: ts) := by
        refine ⟨Nat.succ_le_succ (List.length_pos_of_ne_nil hne), ?_⟩
        rw [TermsWellFormed, termsWellFormed_iff]
        exact ⟨hfirst, yields_more separator (yields_term ih) bound hts⟩
      rcases hkind with rfl | rfl <;> rw [PathExpr.WellFormed] <;> exact hall

end

/-! ## Patterns -/

theorem of_path {p : PathPattern} (h : path s = .ok (p, rest)) :
    p.WellFormed ∧ ∀ n ∈ p.name, ∃ s', identifier s = .ok (n, s') := by
  obtain ⟨⟨⟨chosen, m⟩, s₁⟩, hchosen, h⟩ := Except.bind_eq_ok_iff.mp h
  obtain ⟨⟨e, s₂⟩, he, heq⟩ := Except.bind_eq_ok_iff.mp h
  obtain ⟨rfl, -⟩ := Prod.mk.inj (Except.ok.inj heq)
  have hname : ∀ n ∈ (declaration s).1, ∃ s', identifier s = .ok (n, s') := of_declaration rfl
  refine ⟨⟨fun n hn => ?_, yields_selectorAndMode hchosen, yields_pathExprWithin _ he⟩, hname⟩
  obtain ⟨s', hn⟩ := hname n hn
  exact yields_identifier hn

/-- Where no match mode is read, its first words do not come next. -/
theorem of_matchMode_none (h : matchMode s = .ok (none, rest)) :
    rest = s ∧ keyword? "REPEATABLE" s = none ∧ keyword? "DIFFERENT" s = none := by
  rw [matchMode] at h
  split at h
  · obtain ⟨s', -, heq⟩ := Except.map_eq_ok_iff.mp h
    cases heq
  split at h
  · obtain ⟨s', -, heq⟩ := Except.map_eq_ok_iff.mp h
    cases heq
  · next _ hrepeatable _ hdifferent =>
    exact ⟨(Prod.mk.inj (Except.ok.inj h)).2.symm, hrepeatable, hdifferent⟩

theorem yields_graph : Yields graph GraphPattern.WellFormed := by
  intro s g rest h
  obtain ⟨⟨m, s₁⟩, hm, h⟩ := Except.bind_eq_ok_iff.mp h
  obtain ⟨⟨paths, s₂⟩, hpaths, h⟩ := Except.bind_eq_ok_iff.mp h
  obtain ⟨⟨c, s₃⟩, hc, heq⟩ := Except.bind_eq_ok_iff.mp h
  obtain ⟨rfl, -⟩ := Prod.mk.inj (Except.ok.inj heq)
  have hall := yields_separated _ (fun _ _ _ hp => (of_path hp).1) hpaths
  refine ⟨hall.1, hall.2, yields_condition hc, fun hnone p hp n hn => ?_⟩
  obtain ⟨p', ps, s', rfl, hp', -⟩ := of_separated hpaths
  obtain rfl : p' = p := Option.some.inj hp
  obtain rfl : m = none := hnone
  obtain ⟨rfl, hrepeatable, hdifferent⟩ := of_matchMode_none hm
  obtain ⟨s'', hn⟩ := (of_path hp').2 n hn
  exact ⟨spells_eq_false hn hrepeatable, spells_eq_false hn hdifferent⟩

end Parser

open GraphPatterns.Parser

/-- **What is read is a pattern of the language.** -/
theorem GraphPattern.wellFormed_of_parse {input : String} {g : GraphPattern}
    (h : parse input = .ok g) : g.WellFormed := by
  rw [parse] at h
  split at h
  · next g' htext =>
    obtain rfl := Except.ok.inj h
    obtain ⟨⟨g'', s⟩, hg, htext⟩ := Except.bind_eq_ok_iff.mp htext
    dsimp only at htext
    split at htext
    · obtain rfl := Except.ok.inj htext
      exact yields_graph hg
    · cases htext
  · cases h

end GraphPatterns
