/-
Parsers of values and expressions are blind to layout. Where brackets are nested, both parsers have a depth
above the length of their text, which what stands between the brackets falls below.
-/
import GraphPatterns.Proofs.BlindTokens
import GraphPatterns.Proofs.ReadWordings

namespace GraphPatterns.Parser

variable {s t r u : List Char} {k l : Nat} {inner inner' : Parse Expr}

/-! ## Values -/

theorem literal?_eq (s : List Char) : literal? s =
    ((keyword? "true" s).map fun s => (Value.boolean true, s)).or
      (((keyword? "false" s).map fun s => (Value.boolean false, s)).or
        ((keyword? "null" s).map fun s => (Value.null, s))) := by
  rw [literal?]
  cases keyword? "true" s with
  | some r => rfl
  | none => cases keyword? "false" s <;> rfl

theorem blindChoice_literal : BlindChoice literal? := by
  intro s t h
  have htrue := (blindToken_keyword "true" (by decide) h).map (Value.boolean true)
  have hfalse := (blindToken_keyword "false" (by decide) h).map (Value.boolean false)
  have hnull := (blindToken_keyword "null" (by decide) h).map Value.null
  rw [literal?_eq, literal?_eq]
  exact htrue.or (hfalse.or hnull)

theorem agree_value (h : Relaid s t) : Agree s t (value s) (value t) := by
  refine blind_of_depth (fun n m hvalue s t h hs ht => ?_) h
  rw [valueWithin, valueWithin, isAtDigit_eq h, isAt_eq h]
  rcases agree_string h with ⟨hs', ht'⟩ | ⟨x, y, hs', ht', hxy⟩
  · rw [hs', ht']
    dsimp only
    split
    · exact agree_number h
    · refine (blindToken_char '[' (by decide) h).elim ?_ fun r u hru hr hu => ?_
      · rcases blindChoice_literal h with ⟨hs', ht'⟩ | ⟨v, r, u, hs', ht', hru, hr, hu⟩
        · rw [hs', ht']
          exact agree_fail
        · rw [hs', ht']
          exact agree_ok_of hru (Nat.le_of_lt hr) (Nat.le_of_lt hu)
      · refine (agree_itemsUntil ']' hvalue hru (by omega) (by omega)).bind fun items r u hru _ _ => ?_
        exact (agree_expectChar ']' (by decide) hru).bind fun r u hru _ _ => agree_ok hru
  · rw [hs', ht']
    exact hxy.agree.map fun a r u hru => agree_ok hru

/-! ## Operators -/

theorem blindChoice_oneOf {operators : List Operator} (h : ∀ o ∈ operators, BlindChoice o) :
    BlindChoice (oneOf operators) := by
  induction operators with
  | nil => exact fun s t _ => .inl ⟨rfl, rfl⟩
  | cons o operators ih =>
    rw [List.forall_mem_cons] at h
    exact fun s t hst => (h.1 hst).or (ih h.2 hst)

theorem blindChoice_symbol {w : String} (hw : IsSolidText w) (op : BinaryOp) : BlindChoice (symbol w op) :=
  fun _ _ h => (blindToken_text w hw h).map op

theorem blindChoice_word {w : String} (hw : w.toList ≠ []) (op : BinaryOp) : BlindChoice (word w op) :=
  fun _ _ h => (blindToken_keyword w hw h).map op

/-- The sign of a division is no solid character, as it may start a comment; but it is read alone. -/
theorem blindChoice_div : BlindChoice (symbol "/" .div) := by
  intro s t h
  rw [symbol, symbol, text?_eq_char? rfl, text?_eq_char? rfl]
  exact (blindToken_char '/' (by decide) h).map BinaryOp.div

theorem blind_chainFrom {operator : Operator} {operand operand' : Parse Expr} (hoperator : BlindChoice operator)
    (hoperand : Blind k l operand operand') : ∀ n m left, n ≤ k → m ≤ l →
      Blind (n + 1) (m + 1) (chainFrom operator operand n left) (chainFrom operator operand' m left) := by
  intro n
  induction n using Nat.strongRecOn with
  | ind n ih =>
    intro m left hn hm s t h hs ht
    rcases hoperator h with ⟨hs', ht'⟩ | ⟨op, r, u, hs', ht', hru, hlt, hlt'⟩
    · rw [chainFrom_none hs', chainFrom_none ht']
      exact agree_ok h
    · obtain ⟨n, m, rfl, rfl, hr, hu⟩ := exists_round hs ht hlt hlt'
      simp only [chainFrom, hs', ht']
      refine Agree.mono ?_ (Nat.le_of_lt hlt) (Nat.le_of_lt hlt')
      refine (hoperand hru (by omega) (by omega)).bind fun right r u hru _ _ => ?_
      exact ih n (Nat.lt_succ_self _) m _ (by omega) (by omega) hru (by omega) (by omega)

theorem blind_chain {operator : Operator} {operand operand' : Parse Expr} (hoperator : BlindChoice operator)
    (hoperand : Blind k l operand operand') : Blind k l (chain operator operand) (chain operator operand') := by
  intro s t h hs ht
  rw [chain, chain]
  refine (hoperand h hs ht).bind fun left r u hru hr hu => ?_
  exact blind_chainFrom hoperator hoperand _ _ left (by omega) (by omega) hru (Nat.lt_succ_self _)
    (Nat.lt_succ_self _)

theorem blind_prefixed {operator : List Char → Option (List Char)} {op : UnaryOp} {operand operand' : Parse Expr}
    (hoperator : BlindToken operator) (hoperand : Blind k l operand operand') :
    Blind k l (fun s => prefixed operator op operand s.length s)
      (fun s => prefixed operator op operand' s.length s) := by
  suffices hbound : ∀ n m s t, Relaid s t → s.length < k → t.length < l → s.length < n + 1 → t.length < m + 1 →
      Agree s t (prefixed operator op operand n s) (prefixed operator op operand' m t) from
    fun s t h hs ht => hbound _ _ s t h hs ht (Nat.lt_succ_self _) (Nat.lt_succ_self _)
  intro n
  induction n using Nat.strongRecOn with
  | ind n ih =>
    intro m s t h hk hl hs ht
    rcases hoperator h with ⟨hs', ht'⟩ | ⟨r, u, hs', ht', hru, hlt, hlt'⟩
    · rw [prefixed_none hs', prefixed_none ht']
      exact hoperand h hk hl
    · obtain ⟨n, m, rfl, rfl, hr, hu⟩ := exists_round hs ht hlt hlt'
      simp only [prefixed, hs', ht']
      refine Agree.mono ?_ (Nat.le_of_lt hlt) (Nat.le_of_lt hlt')
      have hrest := ih n (Nat.lt_succ_self _) m r u hru (by omega) (by omega) hr hu
      exact hrest.bind fun e _ _ h _ _ => agree_ok h

/-! ## Operands -/

theorem agree_reference (h : Relaid s t) : Agree s t (reference s) (reference t) := by
  rw [reference, reference]
  refine (agree_identifier h).bind fun name r u hru _ _ => ?_
  refine (blindToken_char '.' (by decide) hru).elim_none (agree_ok hru) fun r u hru _ _ => ?_
  exact (agree_identifier hru).bind fun key _ _ h _ _ => agree_ok h

/-- Between brackets what is left is shorter. -/
theorem blind_primary (hinner : Blind k l inner inner') :
    Blind (k + 1) (l + 1) (primary inner) (primary inner') := by
  intro s t h hk hl
  rw [primary, primary, isAtDigit_eq h]
  refine (blindToken_char '(' (by decide) h).elim ?_ fun r u hru hr hu => ?_
  · refine (blindToken_char '[' (by decide) h).elim ?_ fun r u hru hr hu => ?_
    · rcases agree_string h with ⟨hs, ht⟩ | ⟨x, y, hs, ht, hxy⟩
      · rw [hs, ht]
        dsimp only
        split
        · exact (agree_number h).map fun v r u hru => agree_ok hru
        · rcases blindChoice_literal h with ⟨hs, ht⟩ | ⟨v, r, u, hs, ht, hru, hr, hu⟩
          · rw [hs, ht]
            exact agree_reference h
          · rw [hs, ht]
            exact agree_ok_of hru (Nat.le_of_lt hr) (Nat.le_of_lt hu)
      · rw [hs, ht]
        exact hxy.agree.map fun a r u hru => agree_ok hru
    · refine (agree_itemsUntil ']' hinner hru (by omega) (by omega)).bind fun items r u hru _ _ => ?_
      exact (agree_expectChar ']' (by decide) hru).bind fun r u hru _ _ => agree_ok hru
  · refine (hinner hru (by omega) (by omega)).bind fun e r u hru _ _ => ?_
    exact (agree_expectChar ')' (by decide) hru).bind fun r u hru _ _ => agree_ok hru

theorem blind_sum (hinner : Blind k l inner inner') :
    Blind (k + 1) (l + 1) (Parser.sum inner) (Parser.sum inner') := by
  have hsigned : Blind (k + 1) (l + 1) (signed inner) (signed inner') :=
    blind_prefixed (blindToken_char '-' (by decide)) (blind_primary hinner)
  have hproduct : Blind (k + 1) (l + 1) (product inner) (product inner') := by
    refine blind_chain (blindChoice_oneOf ?_) hsigned
    simp only [List.forall_mem_cons]
    exact ⟨blindChoice_symbol (by decide) _, blindChoice_div, blindChoice_symbol (by decide) _,
      List.forall_mem_nil _⟩
  refine blind_chain (blindChoice_oneOf ?_) hproduct
  simp only [List.forall_mem_cons]
  exact ⟨blindChoice_symbol (by decide) _, blindChoice_symbol (by decide) _, List.forall_mem_nil _⟩

/-! ## Comparisons -/

/-- No comparison is there, or the same one is, or one that is not complete. -/
def AgreeComparator (s t : List Char) (x y : Except Failure (Option (BinaryOp × List Char))) : Prop :=
  (∃ e f, x = .error e ∧ y = .error f) ∨ ∃ x' y', x = .ok x' ∧ y = .ok y' ∧ AgreeChoice s t x' y'

theorem agreeComparator_words (w : String) (hw : w.toList ≠ []) (op : BinaryOp) (h : Relaid r u)
    (hr : r.length < s.length) (hu : u.length < t.length) :
    AgreeComparator s t ((expectKeyword w r).map fun s => some (op, s))
      ((expectKeyword w u).map fun s => some (op, s)) := by
  rcases agree_expectKeyword w hw h with ⟨e, f, hr', hu'⟩ | ⟨r', u', hr', hu', hru, hlt, hlt'⟩
  · rw [hr', hu']
    exact .inl ⟨e, f, rfl, rfl⟩
  · rw [hr', hu']
    exact .inr ⟨_, _, rfl, rfl, .inr ⟨op, r', u', rfl, rfl, hru, by omega, by omega⟩⟩

theorem agree_comparator (h : Relaid s t) : AgreeComparator s t (comparator s) (comparator t) := by
  have hsymbols : BlindChoice (oneOf [symbol "<=" .le, symbol ">=" .ge, symbol "<>" .ne, symbol "!=" .ne,
      symbol "<" .lt, symbol ">" .gt, symbol "=" .eq, word "CONTAINS" .contains]) := by
    refine blindChoice_oneOf ?_
    simp only [List.forall_mem_cons]
    refine ⟨?_, ?_, ?_, ?_, ?_, ?_, ?_, blindChoice_word (by decide) _, List.forall_mem_nil _⟩
    all_goals exact blindChoice_symbol (by decide) _
  rw [comparator, comparator]
  rcases hsymbols h with ⟨hs, ht⟩ | ⟨op, r, u, hs, ht, hru⟩
  · rw [hs, ht]
    dsimp only
    rcases blindToken_keyword "STARTS" (by decide) h with ⟨hs, ht⟩ | ⟨r, u, hs, ht, hru, hr, hu⟩
    · rw [hs, ht]
      dsimp only
      rcases blindToken_keyword "ENDS" (by decide) h with ⟨hs, ht⟩ | ⟨r, u, hs, ht, hru, hr, hu⟩
      · rw [hs, ht]
        exact .inr ⟨_, _, rfl, rfl, blindChoice_word (by decide) _ h⟩
      · rw [hs, ht]
        exact agreeComparator_words "WITH" (by decide) _ hru hr hu
    · rw [hs, ht]
      exact agreeComparator_words "WITH" (by decide) _ hru hr hu
  · rw [hs, ht]
    exact .inr ⟨_, _, rfl, rfl, .inr ⟨op, r, u, rfl, rfl, hru⟩⟩

theorem blind_comparison (hinner : Blind k l inner inner') :
    Blind (k + 1) (l + 1) (comparison inner) (comparison inner') := by
  intro s t h hk hl
  rw [comparison, comparison]
  refine (blind_sum hinner h hk hl).bind fun left r u hru hr hu => ?_
  refine (blindToken_keyword "IS" (by decide) hru).elim ?_ fun r u hru _ _ => ?_
  · dsimp only
    rcases agree_comparator hru with ⟨e, f, hr', hu'⟩ | ⟨x, y, hr', hu', hxy⟩
    · rw [hr', hu']
      exact .inl ⟨e, f, rfl, rfl⟩
    · rw [hr', hu']
      rcases hxy with ⟨rfl, rfl⟩ | ⟨op, r', u', rfl, rfl, hru', hlt, hlt'⟩
      · exact agree_ok hru
      · refine Agree.mono ?_ (Nat.le_of_lt hlt) (Nat.le_of_lt hlt')
        exact (blind_sum hinner hru' (by omega) (by omega)).bind fun right _ _ h _ _ => agree_ok h
  · rcases blindToken_keyword "NOT" (by decide) hru with ⟨hr, hu⟩ | ⟨r', u', hr, hu, hru', hlt, hlt'⟩
    · rw [hr, hu]
      exact (agree_expectKeyword "NULL" (by decide) hru).bind fun _ _ h _ _ => agree_ok h
    · rw [hr, hu]
      refine Agree.mono ?_ (Nat.le_of_lt hlt) (Nat.le_of_lt hlt')
      exact (agree_expectKeyword "NULL" (by decide) hru').bind fun _ _ h _ _ => agree_ok h

/-! ## Expressions -/

theorem blind_exprOver (hinner : Blind k l inner inner') :
    Blind (k + 1) (l + 1) (exprOver inner) (exprOver inner') := by
  have hnegation : Blind (k + 1) (l + 1) (negation inner) (negation inner') :=
    blind_prefixed (blindToken_keyword "NOT" (by decide)) (blind_comparison hinner)
  have hand := blind_chain (blindChoice_word (w := "AND") (by decide) .and) hnegation
  have hxor := blind_chain (blindChoice_word (w := "XOR") (by decide) .xor) hand
  exact blind_chain (blindChoice_word (by decide) .or) hxor

theorem agree_expr (h : Relaid s t) : Agree s t (expr s) (expr t) :=
  blind_of_depth (fun _ _ hexpr => blind_exprOver hexpr) h

theorem agree_condition (h : Relaid s t) : Agree s t (condition s) (condition t) := by
  rw [condition, condition]
  refine (blindToken_keyword "WHERE" (by decide) h).elim (agree_ok h) fun r u hru _ _ => ?_
  exact (agree_expr hru).map fun e r u hru => agree_ok hru

end GraphPatterns.Parser
