/-
Values and expressions at byte positions. They follow their parsers on texts that are shorter than a bound,
by induction on the bound: what stands between brackets is shorter than the text with the brackets.
-/
import GraphPatterns.Proofs.ScannedTokens

namespace GraphPatterns.Scan

open GraphPatterns.Parser (skip)

variable {source : Source} {bound : Nat} {c : TextCursor} {s : List Char} {isOperator : Scan Bool}
  {token : List Char → Option (List Char)} {operator : Scan (Option BinaryOp)} {choice : Parser.Operator}
  {inner operand : Scan Expr} {parse : Parser.Parse Expr}

/-! ## Values -/

theorem reaches_isQuoteNext (h : c.IsAt source.text (skip s)) :
    (isQuoteNext source c).Reaches source.text c.position (Parser.string? s).isSome (skip s) := by
  have hstring : (Parser.string? s).isSome = ((skip s).head? == some '"' || (skip s).head? == some '\'') := by
    rw [Parser.string?]
    cases skip s with
    | nil => rfl
    | cons d r =>
      dsimp only
      split
      · next hquote => simpa using hquote
      · next hquote => simpa [not_or] using hquote
  rw [hstring]
  exact reaches_bind (reaches_isNext h '"') fun c hc => reaches_bind (reaches_isNext hc '\'') fun c hc =>
    reaches_pure hc _

theorem findsOne_words (hpatient : source.IsPatient) : FindsOne source (firstOf words) Parser.literal? := by
  refine (findsOne_cons (finds_tryKeyword hpatient (by decide))
    (findsOne_cons (finds_tryKeyword hpatient (by decide))
      (findsOne_single (finds_tryKeyword hpatient (by decide))))).congr fun s => ?_
  rw [Parser.literal?]
  cases Parser.keyword? "true" s <;> cases Parser.keyword? "false" s <;> rfl

theorem follows_valueWithin (hpatient : source.IsPatient) {n m : Nat} (hn : bound ≤ n) (hm : bound ≤ m) :
    Follows source bound (valueWithin n) (Parser.valueWithin m) := by
  induction bound generalizing n m with
  | zero => exact fun _ _ _ hs => absurd hs (Nat.not_lt_zero _)
  | succ bound ih =>
    obtain ⟨n, rfl⟩ : ∃ k, n = k + 1 := Nat.exists_eq_add_one.mpr (Nat.zero_lt_of_lt hn)
    obtain ⟨m, rfl⟩ : ∃ k, m = k + 1 := Nat.exists_eq_add_one.mpr (Nat.zero_lt_of_lt hm)
    have hinner := ih (Nat.le_of_succ_le_succ hn) (Nat.le_of_succ_le_succ hm)
    intro c s hc hs
    rw [Parser.valueWithin]
    refine follows_passing (follows_skipBlanks hpatient hc fun c hc => ?_)
    refine follows_after (reaches_isQuoteNext hc) fun c hc => ?_
    cases hstring : Parser.string? s with
    | some result =>
      exact follows_map (follows_string hpatient hc hstring) fun t r c hc _ => follows_pure hc
    | none =>
      refine follows_after (reaches_isDigitNext hc) fun c hc => ?_
      refine follows_after (reaches_isNext hc '-') fun c hc => ?_
      cases hnumber : Parser.isAtDigit s || Parser.isAt '-' s with
      | true =>
        rw [Parser.isAtDigit, Parser.isAt] at hnumber
        rw [hnumber, if_pos rfl]
        exact follows_number hpatient hc.isNear_skip (Bool.or_eq_true_iff.mp hnumber)
      | false =>
        rw [Parser.isAtDigit, Parser.isAt] at hnumber
        rw [hnumber, if_neg Bool.false_ne_true]
        refine (finds_tryChar hpatient '[').follows hc.isNear_skip (fun r c hr hc hlt => ?_) fun c hr hc => ?_
        · rw [hr]
          refine follows_bind (follows_itemsUntil hpatient hinner hc.isNear (by omega)
            (Nat.lt_succ_of_le (Parser.length_skip_le r))) fun items r c hc _ => ?_
          exact follows_expect (ends_expectChar hpatient hc ']') fun r c hc _ => follows_pure hc
        · rw [hr]
          refine (findsOne_words hpatient).follows hc.isNear_skip (fun v r c hv hc hlt => ?_) fun c hv hc => ?_
          · rw [hv]
            exact follows_pure hc.isNear
          · rw [hv]
            exact follows_fail hc

theorem follows_value (hpatient : source.IsPatient) : Follows source bound value Parser.value := by
  intro c s hc _
  exact follows_source (follows_valueWithin hpatient (lt_rounds hpatient hc)
    (Nat.succ_le_succ (Parser.length_skip_le s)) c s hc (Nat.lt_add_one _))

/-! ## Operators -/

theorem follows_chain (hpatient : source.IsPatient) (hoperator : FindsOne source operator choice)
    (h : Follows source bound operand parse) :
    Follows source bound (chain operator operand) (Parser.chain choice parse) := by
  intro c s hc hs
  refine follows_passing (follows_bind (h c s hc hs) fun left r c hc hle => ?_)
  refine follows_loop (fun n left s => Parser.chainFrom choice parse n left s) hpatient ?_ hc
    (Nat.lt_of_le_of_lt hle hs) (Parser.length_skip_le r)
  intro n left s c hc hs hn
  cases hchoice : choice s with
  | some one =>
    obtain ⟨op, r⟩ := one
    obtain ⟨hfound, hlt⟩ := hoperator.found hc hchoice
    obtain ⟨n, rfl⟩ : ∃ m, n = m + 1 := Nat.exists_eq_add_one.mpr (by omega)
    rw [Parser.chainFrom, hchoice]
    dsimp only
    refine reaches_bind hfound fun c hc => ?_
    refine round_bind (h c r hc.isNear (by omega)) (fun right u c hu hc hle => ?_) fun e he => ?_
    · rw [hu]
      exact round_next hc rfl (by omega) (by omega)
    · rw [he]
      rfl
  | none =>
    refine reaches_bind (hoperator.absent hc hchoice) fun c hc => ?_
    refine round_stop hc.isNear_skip ?_ (Nat.le_refl _)
    cases n with
    | zero => rfl
    | succ n => rw [Parser.chainFrom, hchoice]

theorem follows_prefixed (hpatient : source.IsPatient) {op : UnaryOp} (hoperator : Finds source isOperator token)
    (h : Follows source bound operand parse) :
    Follows source bound (prefixed isOperator op operand) fun s => Parser.prefixed token op parse s.length s := by
  have hwithin : ∀ n m c s, c.IsNear source.text s → (skip s).length < bound → (skip s).length < n →
      (skip s).length ≤ m → (prefixedWithin isOperator op operand n source c).Follows source.text c.position s
        (Parser.prefixed token op parse m s) := by
    intro n
    induction n with
    | zero => exact fun _ _ _ _ _ hn => absurd hn (Nat.not_lt_zero _)
    | succ n ih =>
      intro m c s hc hs hn hm
      refine follows_passing (hoperator.follows hc (fun r c hr hc hlt => ?_) fun c hr hc => ?_)
      · obtain ⟨m, rfl⟩ : ∃ k, m = k + 1 := Nat.exists_eq_add_one.mpr (by omega)
        rw [Parser.prefixed, hr]
        exact follows_bind (ih m c r hc.isNear (by omega) (by omega) (by omega)) fun e u c hc _ => follows_pure hc
      · have hread : Parser.prefixed token op parse m s = parse s := by
          cases m with
          | zero => rfl
          | succ m => rw [Parser.prefixed, hr]
        rw [hread]
        exact h c s hc.isNear_skip hs
  intro c s hc hs
  exact follows_source (hwithin _ _ c s hc hs (lt_rounds hpatient hc) (Parser.length_skip_le s))

/-! ## Operands -/

theorem follows_reference (hpatient : source.IsPatient) (hc : c.IsNear source.text s) :
    (reference source c).Follows source.text c.position s (Parser.reference s) := by
  refine follows_bind (follows_identifier hpatient hc) fun name r c hc _ => ?_
  refine (finds_tryChar hpatient '.').follows hc (fun u c hu hc _ => ?_) fun c hu hc => ?_
  · simp only [hu]
    exact follows_bind (follows_identifier hpatient hc.isNear) fun key r c hc _ => follows_pure hc
  · simp only [hu]
    exact follows_pure hc.isNear_skip

theorem follows_primary (hpatient : source.IsPatient) (h : Follows source bound inner parse) :
    Follows source (bound + 1) (primary inner) (Parser.primary parse) := by
  intro c s hc hs
  rw [Parser.primary]
  refine follows_passing (follows_skipBlanks hpatient hc fun c hc => ?_)
  refine (finds_tryChar hpatient '(').follows hc.isNear_skip (fun r c hr hc hlt => ?_) fun c hr hc => ?_
  · rw [hr]
    refine follows_bind (h c r hc.isNear (by omega)) fun e r c hc _ => ?_
    exact follows_expect (ends_expectChar hpatient hc ')') fun r c hc _ => follows_pure hc
  rw [hr]
  refine (finds_tryChar hpatient '[').follows hc.isNear_skip (fun r c hr hc hlt => ?_) fun c hr hc => ?_
  · rw [hr]
    refine follows_bind (follows_itemsUntil hpatient h hc.isNear (by omega)
      (Nat.lt_succ_of_le (Parser.length_skip_le r))) fun items r c hc _ => ?_
    exact follows_expect (ends_expectChar hpatient hc ']') fun r c hc _ => follows_pure hc
  rw [hr]
  refine follows_after (reaches_isQuoteNext hc) fun c hc => ?_
  cases hstring : Parser.string? s with
  | some result =>
    exact follows_map (follows_string hpatient hc hstring) fun t r c hc _ => follows_pure hc
  | none =>
    refine follows_after (reaches_isDigitNext hc) fun c hc => ?_
    cases hdigit : Parser.isAtDigit s with
    | true =>
      rw [Parser.isAtDigit] at hdigit
      rw [hdigit, if_pos rfl]
      exact follows_map (follows_number hpatient hc.isNear_skip (.inl hdigit)) fun v r c hc _ => follows_pure hc
    | false =>
      rw [Parser.isAtDigit] at hdigit
      rw [hdigit, if_neg Bool.false_ne_true]
      refine (findsOne_words hpatient).follows hc.isNear_skip (fun v r c hv hc hlt => ?_) fun c hv hc => ?_
      · rw [hv]
        exact follows_pure hc.isNear
      · rw [hv]
        exact follows_reference hpatient hc.isNear_skip

theorem follows_signed (hpatient : source.IsPatient) (h : Follows source bound inner parse) :
    Follows source (bound + 1) (signed inner) (Parser.signed parse) :=
  follows_prefixed hpatient (finds_tryChar hpatient '-') (follows_primary hpatient h)

theorem follows_product (hpatient : source.IsPatient) (h : Follows source bound inner parse) :
    Follows source (bound + 1) (product inner) (Parser.product parse) := by
  refine follows_chain hpatient ((findsOne_cons (finds_tryChar hpatient '*')
    (findsOne_cons (finds_tryChar hpatient '/') (findsOne_single (finds_tryChar hpatient '%')))).congr fun s => ?_)
    (follows_signed hpatient h)
  simp only [Parser.oneOf, Parser.symbol, Option.or_none]
  rw [Parser.text?_eq_char? (c := '*') rfl, Parser.text?_eq_char? (c := '/') rfl,
    Parser.text?_eq_char? (c := '%') rfl]

theorem follows_sum (hpatient : source.IsPatient) (h : Follows source bound inner parse) :
    Follows source (bound + 1) (sum inner) (Parser.sum parse) := by
  refine follows_chain hpatient ((findsOne_cons (finds_tryChar hpatient '+')
    (findsOne_single (finds_tryChar hpatient '-'))).congr fun s => ?_) (follows_product hpatient h)
  simp only [Parser.oneOf, Parser.symbol, Option.or_none]
  rw [Parser.text?_eq_char? (c := '+') rfl, Parser.text?_eq_char? (c := '-') rfl]

/-! ## Comparisons -/

theorem findsOne_comparisons (hpatient : source.IsPatient) :
    FindsOne source (firstOf [(tryText "<=", .le), (tryText ">=", .ge), (tryText "<>", .ne), (tryText "!=", .ne),
      (tryChar '<', .lt), (tryChar '>', .gt), (tryChar '=', .eq), (tryKeyword "CONTAINS", .contains)])
    (Parser.oneOf [Parser.symbol "<=" .le, Parser.symbol ">=" .ge, Parser.symbol "<>" .ne, Parser.symbol "!=" .ne,
      Parser.symbol "<" .lt, Parser.symbol ">" .gt, Parser.symbol "=" .eq, Parser.word "CONTAINS" .contains]) := by
  have hchar (d : Char) := finds_tryChar hpatient d
  have htext {t : String} (ht : t.toList ≠ []) := finds_tryText hpatient ht
  refine (findsOne_cons (htext (by decide)) <| findsOne_cons (htext (by decide)) <|
    findsOne_cons (htext (by decide)) <| findsOne_cons (htext (by decide)) <| findsOne_cons (hchar '<') <|
    findsOne_cons (hchar '>') <| findsOne_cons (hchar '=') <|
    findsOne_single (finds_tryKeyword hpatient (by decide))).congr fun s => ?_
  simp only [Parser.oneOf, Parser.symbol, Parser.word, Option.or_none]
  rw [Parser.text?_eq_char? (t := "<") (c := '<') rfl, Parser.text?_eq_char? (t := ">") (c := '>') rfl,
    Parser.text?_eq_char? (t := "=") (c := '=') rfl]

theorem ends_withWord (hpatient : source.IsPatient) {op : BinaryOp} {r : List Char} (hc : c.IsNear source.text r)
    (hlt : (skip r).length < (skip s).length) :
    ((expectKeyword "WITH" >>= fun _ => pure (some op)) source c).Ends source.text c.position
      (fun
        | some op', u => (Parser.expectKeyword "WITH" r).map (fun u => some (op, u)) = .ok (some (op', u)) ∧
            (skip u).length < (skip s).length
        | none, u => (Parser.expectKeyword "WITH" r).map (fun u => some (op, u)) = .ok none ∧ u = skip s)
      fun e => (Parser.expectKeyword "WITH" r).map (fun u => some (op, u)) = .error e := by
  refine ends_bind (ends_expectKeyword hpatient hc (by decide)) ?_ fun e he => by rw [he]; rfl
  rintro _ u c ⟨hu, hlt'⟩ hc
  exact ends_pure hc ⟨by rw [hu]; rfl, Nat.lt_trans hlt' hlt⟩

theorem ends_comparator (hpatient : source.IsPatient) (hc : c.IsNear source.text s) :
    (comparator source c).Ends source.text c.position
      (fun
        | some op, r => Parser.comparator s = .ok (some (op, r)) ∧ (skip r).length < (skip s).length
        | none, r => Parser.comparator s = .ok none ∧ r = skip s)
      fun e => Parser.comparator s = .error e := by
  have hword {k : String} (hk : k.toList ≠ []) := finds_tryKeyword hpatient hk
  rw [Parser.comparator]
  generalize hone : Parser.oneOf _ s = one
  cases one with
  | some one =>
    obtain ⟨op, r⟩ := one
    obtain ⟨hfound, hlt⟩ := (findsOne_comparisons hpatient).found hc hone
    exact reaches_bind hfound fun c hc => ends_pure hc ⟨rfl, hlt⟩
  | none =>
    refine reaches_bind ((findsOne_comparisons hpatient).absent hc hone) fun c hc => ?_
    refine (hword (k := "STARTS") (by decide)).ite hc.isNear_skip (fun r c hr hc hlt => ?_) fun c hr hc => ?_
    · rw [hr]
      exact ends_withWord hpatient hc.isNear hlt
    rw [hr]
    refine (hword (k := "ENDS") (by decide)).ite hc.isNear_skip (fun r c hr hc hlt => ?_) fun c hr hc => ?_
    · rw [hr]
      exact ends_withWord hpatient hc.isNear hlt
    rw [hr]
    refine (hword (k := "IN") (by decide)).ite hc.isNear_skip (fun r c hr hc hlt => ?_) fun c hr hc => ?_
    · exact ends_pure hc ⟨by rw [Parser.word, hr]; rfl, hlt⟩
    · exact ends_pure hc ⟨by rw [Parser.word, hr]; rfl, rfl⟩

theorem follows_comparator {α : Type} {next : Option BinaryOp → Scan α}
    {f : Option (BinaryOp × List Char) → Except Parser.Failure (α × List Char)} (hpatient : source.IsPatient)
    (hc : c.IsNear source.text s)
    (hsome : ∀ op r c', c'.IsNear source.text r → (skip r).length < (skip s).length →
      (next (some op) source c').Follows source.text c'.position r (f (some (op, r))))
    (hnone : ∀ c', c'.IsNear source.text s →
      (next none source c').Follows source.text c'.position s (f none)) :
    ((comparator >>= next) source c).Follows source.text c.position s (Parser.comparator s >>= f) := by
  refine ends_bind (ends_comparator hpatient hc) ?_ fun e he => by rw [he]; rfl
  rintro (_ | op) r c' ⟨hread, hr⟩ hc'
  · rw [hread]
    exact hnone c' (hr ▸ hc').isNear_skip
  · rw [hread]
    exact (hsome op r c' hc'.isNear hr).mono_text (Nat.le_of_lt hr)

theorem follows_comparison (hpatient : source.IsPatient) (h : Follows source bound inner parse) :
    Follows source (bound + 1) (comparison inner) (Parser.comparison parse) := by
  have hsum := follows_sum hpatient h
  intro c s hc hs
  refine follows_passing (follows_bind (hsum c s hc hs) fun left r c hc hle => ?_)
  refine (finds_tryKeyword hpatient (by decide)).follows hc (fun u c hu hc hlt => ?_) fun c hu hc => ?_
  · simp only [hu]
    have hnot := finds_tryKeyword (k := "NOT") hpatient (by decide)
    have hnull (op : UnaryOp) {v : List Char} {c : TextCursor} (hc : c.IsNear source.text v) :
        ((expectKeyword "NULL" >>= fun _ => pure (Expr.unary op left)) source c).Follows source.text c.position v
          (Parser.expectKeyword "NULL" v >>= fun w => .ok (Expr.unary op left, w)) :=
      follows_expect (ends_expectKeyword hpatient hc (by decide)) fun w c hc _ => follows_pure hc
    cases hr : Parser.keyword? "NOT" u with
    | some v =>
      obtain ⟨hfound, hlt⟩ := hnot.found hc.isNear hr
      refine follows_after hfound fun c hc => ScanOutcome.Follows.mono_text ?_ (Nat.le_of_lt hlt)
      exact hnull .isNotNull hc.isNear
    | none =>
      refine follows_after (hnot.absent hc.isNear hr) fun c hc => ?_
      exact hnull .isNull hc.isNear_skip
  · simp only [hu]
    refine follows_comparator hpatient hc.isNear_skip (fun op u c hc hlt => ?_) fun c hc => follows_pure hc
    exact follows_bind (hsum c u hc (by omega)) fun right v c hc _ => follows_pure hc

theorem follows_negation (hpatient : source.IsPatient) (h : Follows source bound inner parse) :
    Follows source (bound + 1) (negation inner) (Parser.negation parse) :=
  follows_prefixed hpatient (finds_tryKeyword hpatient (by decide)) (follows_comparison hpatient h)

/-! ## Whole expressions -/

theorem findsOne_word (hpatient : source.IsPatient) {k : String} (hk : k.toList ≠ []) (op : BinaryOp) :
    FindsOne source (word k op) (Parser.word k op) := findsOne_single (finds_tryKeyword hpatient hk)

theorem follows_exprOver (hpatient : source.IsPatient) (h : Follows source bound inner parse) :
    Follows source (bound + 1) (exprOver inner) (Parser.exprOver parse) :=
  follows_chain hpatient (findsOne_word hpatient (by decide) .or) <|
    follows_chain hpatient (findsOne_word hpatient (by decide) .xor) <|
    follows_chain hpatient (findsOne_word hpatient (by decide) .and) <| follows_negation hpatient h

theorem follows_exprWithin (hpatient : source.IsPatient) {n m : Nat} (hn : bound ≤ n) (hm : bound ≤ m) :
    Follows source bound (exprWithin n) (Parser.exprWithin m) := by
  induction bound generalizing n m with
  | zero => exact fun _ _ _ hs => absurd hs (Nat.not_lt_zero _)
  | succ bound ih =>
    obtain ⟨n, rfl⟩ : ∃ k, n = k + 1 := Nat.exists_eq_add_one.mpr (Nat.zero_lt_of_lt hn)
    obtain ⟨m, rfl⟩ : ∃ k, m = k + 1 := Nat.exists_eq_add_one.mpr (Nat.zero_lt_of_lt hm)
    exact follows_exprOver hpatient (ih (Nat.le_of_succ_le_succ hn) (Nat.le_of_succ_le_succ hm))

theorem follows_expr (hpatient : source.IsPatient) : Follows source bound expr Parser.expr := by
  intro c s hc _
  exact follows_source (follows_exprWithin hpatient (lt_rounds hpatient hc)
    (Nat.succ_le_succ (Parser.length_skip_le s)) c s hc (Nat.lt_add_one _))

theorem follows_condition (hpatient : source.IsPatient) (hc : c.IsNear source.text s) :
    (condition source c).Follows source.text c.position s (Parser.condition s) := by
  rw [Parser.condition]
  refine (finds_tryKeyword hpatient (by decide)).follows hc (fun r c hr hc hlt => ?_) fun c hr hc => ?_
  · rw [hr]
    exact follows_map (follows_expr hpatient c r hc.isNear (Nat.lt_add_one _)) fun e u c hc _ => follows_pure hc
  · rw [hr]
    exact follows_pure hc.isNear_skip

end GraphPatterns.Scan
