/-
Every wording of an expression is read as the expression (`GraphPattern.parse_wording`). The parsers of
operands are taken by level. A text that stands at a level is read in two ways: as a whole, where nothing
of its level or tighter comes after it, and as the first operands of a chain, where more of the chain may
follow (`ReadsAt`). The induction is on the wording; an operand of a tighter level than its place asks for
is passed down, level by level.
-/
import GraphPatterns.Pattern.Parser.Path
import GraphPatterns.Proofs.Operators

namespace GraphPatterns

namespace Parser

variable {s r rest g t u w x : List Char} {inner : Parse Expr} {e l : Expr} {level : Nat}

/-! ## Prefixes -/

theorem length_lt_of_char? {c : Char} (h : char? c s = some r) : r.length < s.length := by
  have hlength := length_skip_le s
  rw [char?] at h
  split at h
  · next d v hskip =>
    rw [hskip, List.length_cons] at hlength
    split at h
    · cases h
      omega
    · cases h
  · cases h

theorem length_lt_of_keyword? {k : String} (hk : k.toList ≠ []) (h : keyword? k s = some r) :
    r.length < s.length := by
  have hlength := length_skip_le s
  rw [keyword?, List.span_eq_takeWhile_dropWhile] at h
  dsimp only at h
  split at h
  · next hw =>
    cases h
    have hcut := congrArg List.length (List.takeWhile_append_dropWhile (p := isNamePart) (l := skip s))
    have hsame := congrArg List.length (beq_iff_eq.mp hw)
    have hpos := List.length_pos_iff.mpr hk
    simp only [List.length_append, List.length_map] at hcut hsame
    omega
  · cases h

section

variable {operator : List Char → Option (List Char)} {op : UnaryOp} {parser : Parse Expr}

/-- A text bounds the number of operators in front of it. -/
theorem prefixed_bound (hoperator : ∀ {s r}, operator s = some r → r.length < s.length)
    {bound bound' : Nat} (hb : s.length ≤ bound) (hb' : s.length ≤ bound') :
    prefixed operator op parser bound s = prefixed operator op parser bound' s := by
  induction bound generalizing s bound' with
  | zero =>
    have hnone : operator s = none := by
      cases h : operator s with
      | none => rfl
      | some r => exact absurd (hoperator h) (by omega)
    rw [prefixed_none hnone, prefixed_none hnone]
  | succ bound ih =>
    cases h : operator s with
    | none => rw [prefixed_none h, prefixed_none h]
    | some r =>
      have hr := hoperator h
      obtain ⟨bound', rfl⟩ := Nat.exists_eq_add_one_of_ne_zero (by omega : bound' ≠ 0)
      rw [prefixed, prefixed, h]
      dsimp only
      rw [ih (by omega : r.length ≤ bound) (by omega : r.length ≤ bound')]

theorem prefixed_some (hoperator : ∀ {s r}, operator s = some r → r.length < s.length)
    (h : operator s = some r) :
    prefixed operator op parser s.length s =
      (prefixed operator op parser r.length r).map fun (e, s) => (.unary op e, s) := by
  have hr := hoperator h
  obtain ⟨bound, hbound⟩ := Nat.exists_eq_add_one_of_ne_zero (by omega : s.length ≠ 0)
  rw [hbound, prefixed, h]
  dsimp only
  rw [prefixed_bound hoperator (by omega : r.length ≤ bound) (Nat.le_refl _)]
  cases prefixed operator op parser r.length r <;> rfl

end

theorem negation_of_not (h : keyword? "NOT" s = some r) :
    negation inner s = (negation inner r).map fun (e, s) => (.unary .not e, s) :=
  prefixed_some (length_lt_of_keyword? (by decide)) h

theorem signed_of_minus (h : char? '-' s = some r) :
    signed inner s = (signed inner r).map fun (e, s) => (.unary .neg e, s) :=
  prefixed_some length_lt_of_char? h

theorem IsName.ne_nil {name : String} (h : IsName name) : name.toList ≠ [] := by
  obtain ⟨c, cs, hcs, -⟩ := h
  rw [hcs]
  exact List.cons_ne_nil c cs

/-! ## Levels -/

/-- The levels of the operators that chain. -/
def chainLevels : List Nat := [0, 1, 2, 5, 6]

/-- Reads an operand of a level, given a parser for what stands between brackets. -/
def operand (inner : Parse Expr) : Nat → Parse Expr
  | 0 => exprOver inner
  | 1 => chain (operatorAt 1) (chain (operatorAt 2) (negation inner))
  | 2 => chain (operatorAt 2) (negation inner)
  | 3 => negation inner
  | 4 => comparison inner
  | 5 => sum inner
  | 6 => product inner
  | 7 => signed inner
  | _ => primary inner

theorem operand_chain (h : level ∈ chainLevels) :
    operand inner level = chain (operatorAt level) (operand inner (level + 1)) := by
  simp only [chainLevels, List.mem_cons, List.not_mem_nil, or_false] at h
  rcases h with rfl | rfl | rfl | rfl | rfl <;> rfl

/-- The text is read as the expression at a level. -/
structure ReadsAt (inner : Parse Expr) (level : Nat) (t : List Char) (e : Expr) : Prop where
  starts : StartsOperand t
  /-- Nothing of the level comes after it. -/
  closed : ∀ {s rest}, skip s = t ++ rest → Stops level rest → operand inner level s = .ok (e, rest)
  /-- More of a chain may come after it. -/
  opened : level ∈ chainLevels → ∀ {s rest}, skip s = t ++ rest → Stops (level + 1) rest →
    ∃ bound, rest.length ≤ bound ∧
      operand inner level s = chainFrom (operatorAt level) (operand inner (level + 1)) bound e rest
  noNot : 4 ≤ level → ∀ {s rest}, skip s = t ++ rest → Ends rest → keyword? "NOT" s = none
  noSign : 8 ≤ level → t.head? ≠ some '-'

theorem StartsOperand.skip_append (h : StartsOperand t) (rest : List Char) : skip (t ++ rest) = t ++ rest :=
  h.starts.skip_append rest

theorem chainFrom_none {operator : Operator} {parser : Parse Expr} (h : operator rest = none) (bound : Nat) :
    chainFrom operator parser bound e rest = .ok (e, rest) := by
  cases bound with
  | zero => rfl
  | succ bound => rw [chainFrom, h]

/-- A test ends the sum before it. -/
theorem stops_of_test {op : UnaryOp} (hop : op.isTest = true) (hu : Words op.testWords u)
    (rest : List Char) : Stops 5 (u ++ rest) := by
  cases op with
  | isNull | isNotNull =>
    obtain _ | ⟨hg, hw, hu⟩ := hu
    obtain _ | ⟨hg', hw', hu'⟩ := hu
    simp only [List.append_assoc]
    exact stops_of_word (by decide) hw hg (nameEnds_break hg' _) (by decide)
  | _ => cases hop

/-- What a comparison reads after its left sum. -/
def compared (inner : Parse Expr) (left : Expr) : Parse Expr := fun s =>
  match keyword? "IS" s with
  | some s => do
    let (op, s) :=
      match keyword? "NOT" s with
      | some s => (UnaryOp.isNotNull, s)
      | none => (UnaryOp.isNull, s)
    let s ← expectKeyword "NULL" s
    return (.unary op left, s)
  | none => do
    match ← comparator s with
    | none => return (left, s)
    | some (op, s) =>
      let (right, s) ← sum inner s
      return (.binary op left right, s)

theorem comparison_eq_sum (s : List Char) :
    comparison inner s = Parser.sum inner s >>= fun (left, s) => compared inner left s := rfl

theorem compared_test {op : UnaryOp} (hop : op.isTest = true) (hu : Words op.testWords u)
    (hrest : NameEnds rest) : compared inner e (u ++ rest) = .ok (.unary op e, rest) := by
  have his : IsKeyword "IS" := by decide
  have hnot : IsKeyword "NOT" := by decide
  have hnull : IsKeyword "NULL" := by decide
  have hends {g w : List Char} (hg : IsBreak g) (hw : sameLetters w "NULL".toList = true) :
      keyword? "NOT" (g ++ (w ++ rest)) = none ∧
        expectKeyword "NULL" (g ++ (w ++ rest)) = .ok rest := by
    have hs := skip_keyword hnull hw hg.gap rest
    rw [expectKeyword, keyword?_spelled hnull hw hs hrest, keyword?_word hnull hw hs hrest]
    exact ⟨rfl, rfl⟩
  rw [compared]
  cases op with
  | isNull =>
    obtain _ | ⟨hg, hw, _ | ⟨hg', hw', _ | _⟩⟩ := hu
    simp only [List.append_assoc, List.nil_append]
    rw [keyword?_spelled his hw (skip_keyword his hw hg.gap _) (nameEnds_break hg' _)]
    dsimp only
    rw [(hends hg' hw').1]
    dsimp only
    rw [(hends hg' hw').2]
    rfl
  | isNotNull =>
    obtain _ | ⟨hg, hw, _ | ⟨hg', hw', _ | ⟨hg'', hw'', _ | _⟩⟩⟩ := hu
    simp only [List.append_assoc, List.nil_append]
    rw [keyword?_spelled his hw (skip_keyword his hw hg.gap _) (nameEnds_break hg' _)]
    dsimp only
    rw [keyword?_spelled hnot hw' (skip_keyword hnot hw' hg'.gap _) (nameEnds_break hg'' _)]
    dsimp only
    rw [(hends hg'' hw'').2]
    rfl
  | _ => cases hop

namespace ReadsAt

theorem reads (h : ReadsAt inner level t e) : Reads (operand inner level) (Stops level) t e :=
  ⟨h.starts.starts, h.closed⟩

/-- An operand that may go on is a whole operand where it does not. -/
theorem closed_of_opened
    (h : ∀ {s rest}, skip s = t ++ rest → Stops (level + 1) rest →
      ∃ bound, rest.length ≤ bound ∧
        operand inner level s = chainFrom (operatorAt level) (operand inner (level + 1)) bound e rest)
    (hs : skip s = t ++ rest) (hrest : Stops level rest) : operand inner level s = .ok (e, rest) := by
  obtain ⟨bound, -, hrun⟩ := h hs (hrest.mono (Nat.le_succ level))
  rw [hrun, chainFrom_none (hrest.operator level (Nat.le_refl level))]

/-- An operand stands where a looser one may. -/
theorem lower (h : ReadsAt inner (level + 1) t e) (hlevel : level < 8) : ReadsAt inner level t e := by
  have hopened : level ∈ chainLevels → ∀ {s rest}, skip s = t ++ rest → Stops (level + 1) rest →
      ∃ bound, rest.length ≤ bound ∧
        operand inner level s = chainFrom (operatorAt level) (operand inner (level + 1)) bound e rest := by
    intro hchain s rest hs hrest
    refine ⟨rest.length, Nat.le_refl _, ?_⟩
    rw [operand_chain hchain, chain, h.closed hs hrest]
    rfl
  refine ⟨h.starts, ?_, hopened, fun hl => h.noNot (by omega), by omega⟩
  intro s rest hs hrest
  have hnext := hrest.mono (Nat.le_succ level)
  by_cases hchain : level ∈ chainLevels
  · exact closed_of_opened (hopened hchain) hs hrest
  have hprefix : level = 3 ∨ level = 4 ∨ level = 7 := by
    simp only [chainLevels, List.mem_cons, List.not_mem_nil, or_false, not_or] at hchain
    omega
  rcases hprefix with rfl | rfl | rfl
  · exact negation_of_comparison (h.noNot (by omega) hs hrest.ends) (h.closed hs hnext)
  · exact comparison_of_sum (h.closed hs hnext) (hrest.test (by omega)) (hrest.comparator (by omega))
  · have hsign : char? '-' s = none := by
      obtain ⟨c, r, rfl, -⟩ := h.starts
      exact char?_eq_none hs fun heq => h.noSign (by omega) (congrArg some heq)
    have hprimary : primary inner s = .ok (e, rest) := h.closed hs hnext
    rw [← hprimary]
    exact prefixed_none hsign s.length

theorem of_le {level' : Nat} (h : ReadsAt inner level t e) (hle : level' ≤ level) (hlevel : level ≤ 8) :
    ReadsAt inner level' t e := by
  induction level with
  | zero => exact Nat.le_zero.mp hle ▸ h
  | succ level ih =>
    rcases Nat.le_succ_iff.mp hle with hle | rfl
    · exact ih (h.lower hlevel) hle (by omega)
    · exact h

/-! ## Operators -/

section

variable {op : BinaryOp} {t' : List Char} {r : Expr}

theorem of_chain (hop : op.level ∈ chainLevels) (hl : ReadsAt inner op.level t l) (hu : op.Between u)
    (hr : ReadsAt inner (op.level + 1) t' r) :
    ReadsAt inner op.level (t ++ (u ++ t')) (.binary op l r) := by
  have hlevel : op.level ≠ 4 := by
    intro heq
    rw [heq] at hop
    exact absurd hop (by decide)
  have hopened : op.level ∈ chainLevels → ∀ {s rest}, skip s = t ++ (u ++ t') ++ rest →
      Stops (op.level + 1) rest → ∃ bound, rest.length ≤ bound ∧
        operand inner op.level s =
          chainFrom (operatorAt op.level) (operand inner (op.level + 1)) bound (.binary op l r) rest := by
    intro hchain s rest hs hrest
    have hjoins := joins_between hu (hr.starts.append rest)
    rw [List.append_assoc, List.append_assoc] at hs
    obtain ⟨bound, hbound, hleft⟩ := hl.opened hchain hs hjoins.stops
    obtain ⟨x, hx, hskip⟩ := hjoins.chained hlevel
    have hpos := hr.starts.starts.length_pos
    simp only [List.length_append] at hbound
    obtain ⟨bound, rfl⟩ := Nat.exists_eq_add_one_of_ne_zero (by omega : bound ≠ 0)
    refine ⟨bound, by omega, ?_⟩
    rw [hleft, chainFrom, hx]
    dsimp only
    rw [hr.closed hskip hrest]
    rfl
  refine ⟨hl.starts.append _, closed_of_opened (hopened hop), hopened, ?_, ?_⟩
  · intro hl4 s rest hs hrest
    rw [List.append_assoc, List.append_assoc] at hs
    exact hl.noNot hl4 hs (joins_between hu (hr.starts.append rest)).stops.ends
  · cases op <;> simp [BinaryOp.level]

theorem of_comparison (hop : op.level = 4) (hl : ReadsAt inner 5 t l) (hu : op.Between u)
    (hr : ReadsAt inner 5 t' r) : ReadsAt inner 4 (t ++ (u ++ t')) (.binary op l r) := by
  refine ⟨hl.starts.append _, ?_, fun h => absurd h (by decide), ?_, by omega⟩
  · intro s rest hs hrest
    have hjoins := joins_between hu (hr.starts.append rest)
    rw [List.append_assoc, List.append_assoc] at hs
    obtain ⟨hstops, -, hcompared⟩ := hjoins
    rw [hop] at hstops
    obtain ⟨his, x, hx, hskip⟩ := hcompared hop
    have hleft : Parser.sum inner s = _ := hl.closed hs hstops
    have hright : Parser.sum inner x = _ := hr.closed hskip (hrest.mono (by omega))
    rw [operand, comparison_eq_sum, hleft, ok_bind]
    dsimp only
    rw [compared, his]
    dsimp only
    rw [hx, ok_bind]
    dsimp only
    rw [hright]
    rfl
  · intro _ s rest hs hrest
    rw [List.append_assoc, List.append_assoc] at hs
    exact hl.noNot (by omega) hs (joins_between hu (hr.starts.append rest)).stops.ends

theorem of_not (h : ReadsAt inner 3 t e) (hw : sameLetters w "NOT".toList = true) (hg : IsBreak g) :
    ReadsAt inner 3 (w ++ (g ++ t)) (.unary .not e) := by
  have hk : IsKeyword "NOT" := by decide
  refine ⟨?_, ?_, fun h => absurd h (by decide), by omega, by omega⟩
  · obtain ⟨c, v, rfl, hc⟩ := exists_cons_of_keyword hk hw
    exact ⟨c, _, rfl, .inl hc⟩
  · intro s rest hs hrest
    rw [List.append_assoc, List.append_assoc] at hs
    have hnot : keyword? "NOT" s = some (g ++ (t ++ rest)) :=
      keyword?_spelled hk hw hs (nameEnds_break hg _)
    have hskip : skip (g ++ (t ++ rest)) = t ++ rest := by
      rw [skip_gap hg.gap, h.starts.skip_append]
    have hrun : negation inner (g ++ (t ++ rest)) = .ok (e, rest) := h.closed hskip hrest
    rw [operand, negation_of_not hnot, hrun]
    rfl

theorem of_neg (h : ReadsAt inner 7 t e) (hg : IsGap g) :
    ReadsAt inner 7 ('-' :: (g ++ t)) (.unary .neg e) := by
  refine ⟨⟨'-', _, rfl, .inr (by decide)⟩, ?_, fun h => absurd h (by decide), ?_, by omega⟩
  · intro s rest hs hrest
    have hskip : skip (g ++ t ++ rest) = t ++ rest := by
      rw [List.append_assoc, skip_gap hg, h.starts.skip_append]
    have hrun : signed inner (g ++ t ++ rest) = .ok (e, rest) := h.closed hskip hrest
    rw [List.cons_append] at hs
    rw [operand, signed_of_minus (char?_of_skip hs), hrun]
    rfl
  · intro _ s rest hs _
    exact keyword?_of_symbol hs rfl (by decide)

theorem of_test {op : UnaryOp} (hop : op.isTest = true) (h : ReadsAt inner 5 t e)
    (hu : Words op.testWords u) : ReadsAt inner 4 (t ++ u) (.unary op e) := by
  refine ⟨h.starts.append _, ?_, fun h => absurd h (by decide), ?_, by omega⟩
  · intro s rest hs hrest
    rw [List.append_assoc] at hs
    have hsum : Parser.sum inner s = .ok (e, u ++ rest) := h.closed hs (stops_of_test hop hu rest)
    rw [operand, comparison_eq_sum, hsum, ok_bind]
    exact compared_test hop hu hrest.ends.1
  · intro _ s rest hs hrest
    rw [List.append_assoc] at hs
    exact h.noNot (by omega) hs (stops_of_test hop hu rest).ends

end

/-! ## Operands without operators -/

theorem of_primary (hstarts : StartsOperand t) (hsign : t.head? ≠ some '-')
    (hnot : ∀ {s rest}, skip s = t ++ rest → Ends rest → keyword? "NOT" s = none)
    (h : ∀ {s rest}, skip s = t ++ rest → Ends rest → primary inner s = .ok (e, rest)) :
    ReadsAt inner 8 t e :=
  ⟨hstarts, fun hs hrest => h hs hrest.ends, fun h => absurd h (by decide), fun _ => hnot, fun _ => hsign⟩

theorem of_word {u : List Char} (hw : ∀ c ∈ w, isNamePart c = true) (hne : w ≠ [])
    (hnot : sameLetters w "NOT".toList = false) (hu : ∀ {rest}, Ends rest → NameEnds (u ++ rest))
    (h : ∀ {s rest}, skip s = w ++ (u ++ rest) → Ends rest → primary inner s = .ok (e, rest)) :
    ReadsAt inner 8 (w ++ u) e := by
  obtain ⟨c, v, rfl⟩ := List.exists_cons_of_ne_nil hne
  have hc : isNamePart c = true := hw c (by simp)
  refine of_primary ⟨c, _, rfl, .inl hc⟩ ?_ ?_ ?_
  · intro hsign
    exact ne_of_test hc rfl (Option.some.inj hsign)
  · intro s rest hs hrest
    rw [List.append_assoc] at hs
    rw [keyword?_of_skip hs hw (hu hrest), hnot]
    rfl
  · intro s rest hs hrest
    rw [List.append_assoc] at hs
    exact h hs hrest

theorem of_bareWord (hw : ∀ c ∈ w, isNamePart c = true) (hne : w ≠ [])
    (hnot : sameLetters w "NOT".toList = false)
    (h : ∀ {s rest}, skip s = w ++ rest → Ends rest → primary inner s = .ok (e, rest)) :
    ReadsAt inner 8 w e := by
  have hread : ReadsAt inner 8 (w ++ []) e :=
    of_word hw hne hnot (fun hrest => hrest.1) fun hs hrest => h hs hrest
  rwa [List.append_nil] at hread

theorem of_bracket {c : Char} (hc : c ∈ ['(', '['])
    (h : ∀ {s rest}, skip s = c :: (t ++ rest) → primary inner s = .ok (e, rest)) :
    ReadsAt inner 8 (c :: t) e := by
  have hpart : isNamePart c = false ∧ c ≠ '-' := by
    simp only [List.mem_cons, List.not_mem_nil, or_false] at hc
    rcases hc with rfl | rfl <;> decide
  refine of_primary ⟨c, t, rfl, .inr (List.mem_append_left ['-'] hc)⟩ ?_ ?_ fun hs _ => h hs
  · intro hsign
    exact hpart.2 (Option.some.inj hsign)
  · intro s rest hs _
    exact keyword?_of_symbol hs hpart.1 (by decide)

theorem of_integer {i : Int64} {digits : List Char} (hne : digits ≠ [])
    (hdigits : ∀ c ∈ digits, c.isDigit = true) (hi : (Number.digitsValue digits : Int) = i.toInt) :
    ReadsAt inner 8 digits (.literal (.integer i)) := by
  obtain ⟨c, v, rfl⟩ := List.exists_cons_of_ne_nil hne
  have hc : c.isDigit = true := hdigits c (by simp)
  refine of_bareWord (fun c hc => isNamePart_of_isDigit (hdigits c hc)) hne (sameLetters_of_isDigit hc rfl) ?_
  intro s rest hs hrest
  have hskip : skip s = c :: (v ++ rest) := hs
  rw [primary, char?_eq_none hskip (ne_of_test hc rfl), char?_eq_none hskip (ne_of_test hc rfl),
    string?_eq_none hskip (ne_of_test hc rfl) (ne_of_test hc rfl)]
  dsimp only
  rw [isAtDigit_of_skip hskip, hc, if_pos rfl, number_digits hne hdigits false hi.symm hs hrest]
  rfl

theorem of_valueWord {k : String} {v : Value} (hk : (k, v) ∈ Value.words)
    (hw : sameLetters w k.toList = true) : ReadsAt inner 8 w (.literal v) := by
  have hkeyword : IsKeyword k ∧ k.toList.head?.all (fun c => isNameStart c.toLower) = true ∧
      sameLetters k.toList "NOT".toList = false := by
    simp only [Value.words, List.mem_cons, List.not_mem_nil, or_false, Prod.mk.injEq] at hk
    rcases hk with ⟨rfl, -⟩ | ⟨rfl, -⟩ | ⟨rfl, -⟩ <;> decide
  obtain ⟨hword, hstart, hnot⟩ := hkeyword
  have hliteral {s rest : List Char} (hs : skip s = w ++ rest) (hrest : NameEnds rest) :
      literal? s = some (v, rest) := by
    rw [literal?_of_skip hs (isNamePart_of_keyword hword hw) hrest]
    simp only [sameLetters_congr hw]
    simp only [Value.words, List.mem_cons, List.not_mem_nil, or_false, Prod.mk.injEq] at hk
    rcases hk with ⟨rfl, rfl⟩ | ⟨rfl, rfl⟩ | ⟨rfl, rfl⟩ <;> rfl
  obtain ⟨c, v', rfl, -⟩ := exists_cons_of_keyword hword hw
  have hc : isNameStart c = true := by
    cases hk : k.toList with
    | nil => exact absurd hk hword.ne_nil
    | cons d ds =>
      rw [hk] at hw hstart
      have hcd : c.toLower = d.toLower := (List.cons.inj (beq_iff_eq.mp hw)).1
      exact isNameStart_toLower (hcd ▸ hstart)
  exact of_bareWord (isNamePart_of_keyword hword hw) (List.cons_ne_nil c v')
    ((sameLetters_congr hw).trans hnot) fun hs hrest => (primary_word hs hc).1 v _ (hliteral hs hrest.1)

theorem of_var {name : String} (hname : IsVariable name) (hnot : spells name "NOT" = false) :
    ReadsAt inner 8 name.toList (.var name) :=
  of_bareWord hname.isName.isNamePart hname.isName.ne_nil hnot fun hs hrest => primary_var hname hs hrest

theorem of_property {name key : String} {g' : List Char} (hname : IsVariable name)
    (hnot : spells name "NOT" = false) (hkey : IsName key) (hg : IsGap g) (hg' : IsGap g') :
    ReadsAt inner 8 (name.toList ++ (g ++ '.' :: (g' ++ key.toList))) (.property name key) := by
  have hdot (rest : List Char) : NameEnds (g ++ '.' :: (g' ++ key.toList) ++ rest) := by
    rw [List.append_assoc]
    refine nameEnds_gap hg ?_
    intro c hc
    cases hc
    rfl
  refine of_word hname.isName.isNamePart hname.isName.ne_nil hnot (fun {rest} _ => hdot rest) ?_
  intro s rest hs hrest
  obtain ⟨c, cs, hcs, hc, -⟩ := hname.isName
  have hskip : skip s = c :: (cs ++ (g ++ '.' :: (g' ++ key.toList) ++ rest)) := by
    rw [hs, hcs, List.cons_append]
  have hchar : char? '.' (g ++ '.' :: (g' ++ key.toList) ++ rest) = some (g' ++ (key.toList ++ rest)) := by
    refine char?_of_skip ?_
    rw [List.append_assoc, skip_gap hg, List.cons_append, List.append_assoc]
    exact skip_cons rfl (by decide)
  have hkeyskip : skip (g' ++ (key.toList ++ rest)) = key.toList ++ rest := by
    rw [skip_gap hg', hkey.starts.skip_append]
  rw [(primary_word hskip hc).2 (hname.literal? hs (hdot rest)), reference,
    identifier_of_skip hname.isName hs (hdot rest), ok_bind]
  dsimp only
  rw [hchar]
  dsimp only
  rw [identifier_of_skip hkey hkeyskip hrest.1, ok_bind]
  rfl

end ReadsAt

/-! ## Brackets -/

theorem stops_of_closing {c : Char} (hc : c ∈ [',', ')', ']']) (hg : IsGap g) (r : List Char) :
    Stops 0 (g ++ c :: r) := by
  have hsymbol : isNamePart c = false ∧ c ≠ '.' ∧ c ∉ ['+', '-'] ∧ c ∉ ['*', '/', '%'] ∧
      c ∉ ['<', '>', '!', '='] ∧ Text.isBlank c = false ∧ c ≠ '/' := by
    simp only [List.mem_cons, List.not_mem_nil, or_false] at hc
    rcases hc with rfl | rfl | rfl <;> decide
  obtain ⟨hpart, hdot, hsum, hproduct, hcomparator, hblank, hslash⟩ := hsymbol
  have hs : skip (g ++ c :: r) = c :: r := by rw [skip_gap hg, skip_cons hblank hslash]
  have hkeyword {k : String} (hk : k.toList ≠ []) : keyword? k (g ++ c :: r) = none :=
    keyword?_of_symbol hs hpart hk
  refine ⟨⟨nameEnds_gap hg ?_, ?_⟩, ?_, fun _ => hkeyword (by decide), ?_⟩
  · intro d hd
    cases hd
    exact hpart
  · rw [isAt_of_skip hs]
    exact beq_eq_false_iff_ne.mpr hdot
  · have hword {t : String} {op : BinaryOp} (ht : t.toList ≠ []) : word t op (g ++ c :: r) = none := by
      rw [word, hkeyword ht, Option.map_none]
    intro l _
    exact operatorAt_eq_none (fun _ => hword (by decide)) (fun _ => hword (by decide))
      (fun _ => hword (by decide)) (fun _ => sumOperator_eq_none hs hsum)
      (fun _ => productOperator_eq_none hs hproduct)
  · intro _
    rw [comparator_of_word hs hcomparator, hkeyword (by decide), hkeyword (by decide),
      hkeyword (by decide), word, hkeyword (by decide)]
    rfl

theorem stops_nil : Stops 0 [] := by
  refine ⟨⟨by simp [NameEnds], rfl⟩, ?_, fun _ => rfl, fun _ => rfl⟩
  intro l _
  exact operatorAt_eq_none (fun _ => rfl) (fun _ => rfl) (fun _ => rfl) (fun _ => rfl) (fun _ => rfl)

theorem itemsUntil_separated {items : List (Expr × List Char)} {g' : List Char}
    (hitems : ∀ p ∈ items, Reads inner (Stops 0) p.2 p.1) (ht : Separated (items.map Prod.snd) t)
    (hg' : IsGap g') {bound : Nat} (hbound : items.length ≤ bound)
    (hs : skip s = skip (t ++ (g' ++ ']' :: rest))) :
    ∃ s', itemsUntil ']' inner bound s = .ok (items.map Prod.fst, s') ∧ skip s' = ']' :: rest := by
  have hclose : skip (g' ++ ']' :: rest) = ']' :: rest := by
    rw [skip_gap hg']
    exact skip_cons rfl (by decide)
  induction items generalizing bound s t with
  | nil =>
    cases ht
    rw [List.nil_append, hclose] at hs
    refine ⟨s, ?_, hs⟩
    cases bound with
    | zero => rfl
    | succ bound =>
      rw [itemsUntil, isAt_of_skip hs]
      rfl
  | cons p items ih =>
    obtain ⟨bound, rfl⟩ := Nat.exists_eq_add_one_of_ne_zero (Nat.ne_zero_of_lt hbound)
    rw [List.forall_mem_cons] at hitems
    obtain ⟨hp, hitems⟩ := hitems
    cases items with
    | nil =>
      obtain _ | _ | _ := ht
      rw [hp.starts.skip_append] at hs
      have hitem := hp.run hs (stops_of_closing (by simp) hg' rest)
      refine ⟨g' ++ ']' :: rest, ?_, hclose⟩
      rw [itemsUntil, hp.starts.isAt (by simp) hs, if_neg Bool.false_ne_true, hitem, ok_bind]
      dsimp only
      rw [char?_eq_none hclose (by decide)]
      rfl
    | cons p' items =>
      obtain _ | _ | ⟨hg, hg'', hw⟩ := ht
      simp only [List.append_assoc, List.cons_append] at hs
      rw [hp.starts.skip_append] at hs
      have hitem := hp.run hs (stops_of_closing (by simp) hg _)
      have hcomma (r : List Char) := char?_of_skip ((skip_gap hg (',' :: r)).trans (skip_cons rfl (by decide)))
      obtain ⟨s', hrun, hs'⟩ := ih hitems hw (Nat.le_of_succ_le_succ hbound) (skip_gap hg'' _)
      refine ⟨s', ?_, hs'⟩
      rw [itemsUntil, hp.starts.isAt (by simp) hs, if_neg Bool.false_ne_true, hitem, ok_bind]
      dsimp only
      rw [hcomma]
      dsimp only
      rw [hrun]
      rfl

theorem ReadsAt.of_parentheses {g' : List Char} (h : ReadsAt inner 0 t e) (hg : IsGap g) (hg' : IsGap g') :
    ReadsAt (exprOver inner) 8 ('(' :: (g ++ (t ++ (g' ++ [')'])))) e := by
  refine of_bracket (by simp) ?_
  intro s rest hs
  simp only [List.append_assoc, List.cons_append, List.nil_append] at hs
  have hskip : skip (g ++ (t ++ (g' ++ ')' :: rest))) = t ++ (g' ++ ')' :: rest) := by
    rw [skip_gap hg, h.starts.skip_append]
  have hrun := h.closed hskip (stops_of_closing (by simp) hg' rest)
  exact primary_parentheses hs hrun ((skip_gap hg' _).trans (skip_cons rfl (by decide)))

theorem ReadsAt.of_list {items : List (Expr × List Char)} {g' : List Char}
    (h : ∀ p ∈ items, ReadsAt inner 0 p.2 p.1) (ht : Separated (items.map Prod.snd) t) (hg : IsGap g)
    (hg' : IsGap g') :
    ReadsAt (exprOver inner) 8 ('[' :: (g ++ (t ++ (g' ++ [']'])))) (.list (items.map Prod.fst)) := by
  refine of_bracket (by simp) ?_
  intro s rest hs
  simp only [List.append_assoc, List.cons_append, List.nil_append] at hs
  have hlength := ht.length_le
  rw [List.length_map] at hlength
  have hbound : items.length ≤ (g ++ (t ++ (g' ++ ']' :: rest))).length + 1 := by
    simp only [List.length_append, List.length_cons]
    omega
  obtain ⟨s', hrun, hs'⟩ := itemsUntil_separated (fun p hp => (h p hp).reads) ht hg' hbound (skip_gap hg _)
  rw [primary, char?_eq_none hs (by decide), char?_of_skip hs]
  dsimp only
  have hrun' : itemsUntil ']' (exprOver inner) ((g ++ (t ++ (g' ++ ']' :: rest))).length + 1)
      (g ++ (t ++ (g' ++ ']' :: rest))) = _ := hrun
  rw [hrun', ok_bind]
  dsimp only
  rw [expectChar_of_skip hs']
  rfl

end Parser

open GraphPatterns.Parser

/-! ## Whole expressions -/

/-- A text that writes an expression at a level is read as the expression at that level. By induction on
the wording: brackets are read one level of nesting deeper, an operand at the level of its place. -/
theorem Expr.Wording.readsAt {level : Nat} {e : Expr} {t : List Char} (h : e.Wording level t) {depth : Nat}
    (hlevel : level ≤ 8) (hdepth : t.length ≤ depth) : ReadsAt (exprWithin depth) level t e := by
  induction h generalizing depth with
  | integer hne hdigits hi => exact (ReadsAt.of_integer hne hdigits hi).of_le hlevel (Nat.le_refl 8)
  | word hk hw => exact (ReadsAt.of_valueWord hk hw).of_le hlevel (Nat.le_refl 8)
  | var hname hnot => exact (ReadsAt.of_var hname hnot).of_le hlevel (Nat.le_refl 8)
  | property hname hnot hkey hg hg' =>
    exact (ReadsAt.of_property hname hnot hkey hg hg').of_le hlevel (Nat.le_refl 8)
  | list _ ht hg hg' ih =>
    simp only [List.length_cons, List.length_append] at hdepth
    obtain ⟨depth, rfl⟩ := Nat.exists_eq_add_one_of_ne_zero (by omega : depth ≠ 0)
    refine (ReadsAt.of_list ?_ ht hg hg').of_le hlevel (Nat.le_refl 8)
    intro p hp
    have hlength := ht.length_le_of_mem (List.mem_map_of_mem hp)
    exact ih p hp (by omega) (by omega)
  | parentheses _ hg hg' ih =>
    simp only [List.length_cons, List.length_append] at hdepth
    obtain ⟨depth, rfl⟩ := Nat.exists_eq_add_one_of_ne_zero (by omega : depth ≠ 0)
    exact (ReadsAt.of_parentheses (ih (by omega) (by omega)) hg hg').of_le hlevel (Nat.le_refl 8)
  | not hle _ hw hg ih =>
    simp only [List.length_append] at hdepth
    exact (ReadsAt.of_not (ih (by omega) (by omega)) hw hg).of_le hle (by omega)
  | neg hle _ hg ih =>
    simp only [List.length_cons, List.length_append] at hdepth
    exact (ReadsAt.of_neg (ih (by omega) (by omega)) hg).of_le hle (by omega)
  | test hop hle _ hu ih =>
    simp only [List.length_append] at hdepth
    exact (ReadsAt.of_test hop (ih (by omega) (by omega)) hu).of_le hle (by omega)
  | @binary level op l r t u t' hle _ hu _ ihl ihr =>
    simp only [List.length_append] at hdepth
    have htight : op.level ≤ 6 := by cases op <;> decide
    have hright := ihr (by omega) (by omega : t'.length ≤ depth)
    by_cases hop : op.level = 4
    · have hleft : ReadsAt (exprWithin depth) 5 t l := by
        rw [BinaryOp.leftLevel, if_pos hop] at ihl
        exact ihl (by omega) (by omega)
      rw [hop] at hright hle
      exact (ReadsAt.of_comparison hop hleft hu hright).of_le hle (by omega)
    · have hchain : op.level ∈ chainLevels := by
        cases op <;> first | decide | exact absurd rfl hop
      have hleft : ReadsAt (exprWithin depth) op.level t l := by
        rw [BinaryOp.leftLevel, if_neg hop] at ihl
        exact ihl (by omega) (by omega)
      exact (ReadsAt.of_chain hchain hleft hu hright).of_le hle (by omega)

theorem Expr.Wording.reads {e : Expr} {t : List Char} (h : e.Wording 0 t) :
    Reads Parser.expr (Stops 0) t e := by
  refine ⟨(h.readsAt (by omega) (Nat.le_refl _)).starts.starts, ?_⟩
  intro s rest hs hrest
  have hlength := length_skip_le s
  rw [hs, List.length_append] at hlength
  exact (h.readsAt (by omega) (by omega : t.length ≤ s.length)).closed hs hrest

/-! ## Conditions -/

/-- The pattern `(a)` with a condition. -/
def GraphPattern.nodeWhere (e : Expr) : GraphPattern where
  paths := [{ expr := .term [.mk (.node { name := some "a" }) none] }]
  condition := some e

/-- A text that starts with `(a) WHERE` goes on with an expression, and has nothing after it but a
semicolon. -/
theorem GraphPattern.parse_where {t : List Char} {g : GraphPattern} :
    parse ("(a) WHERE " ++ String.ofList t) = .ok g ↔
      ∃ e rest, Parser.expr (' ' :: t) = .ok (e, rest) ∧ skip ((char? ';' rest).getD rest) = [] ∧
        g = nodeWhere e := by
  have hgraph : graph ("(a) WHERE ".toList ++ t) =
      (Parser.expr (' ' :: t)).map fun (e, s) => (nodeWhere e, s) := by
    have hpaths : separated (char? ',') path ("(a) WHERE ".toList ++ t) =
        .ok ((nodeWhere default).paths, " WHERE ".toList ++ t) := rfl
    have hcondition : Parser.condition (" WHERE ".toList ++ t) =
        (Parser.expr (' ' :: t)).map fun (e, s) => (some e, s) := rfl
    have hmode : Parser.matchMode ("(a) WHERE ".toList ++ t) = .ok (none, "(a) WHERE ".toList ++ t) := rfl
    rw [graph, hmode, ok_bind]
    dsimp only
    rw [hpaths, ok_bind]
    dsimp only
    rw [hcondition]
    cases Parser.expr (' ' :: t) <;> rfl
  have hmatch : (keyword? "MATCH" ("(a) WHERE ".toList ++ t)).getD ("(a) WHERE ".toList ++ t) =
      "(a) WHERE ".toList ++ t := rfl
  have htext : ("(a) WHERE " ++ String.ofList t).toList = "(a) WHERE ".toList ++ t := by
    simp [String.toList_append]
  rw [parse, htext]
  generalize "(a) WHERE ".toList ++ t = s at hgraph hmatch
  rw [Parser.text, hmatch, hgraph]
  cases Parser.expr (' ' :: t) with
  | error failure =>
    constructor
    · intro h
      cases h
    · rintro ⟨e, rest, h, -⟩
      cases h
  | ok r =>
    obtain ⟨e, rest⟩ := r
    rw [ok_map, ok_bind]
    dsimp only
    by_cases hrest : skip ((char? ';' rest).getD rest) = []
    · rw [hrest]
      constructor
      · intro h
        cases h
        exact ⟨e, rest, rfl, hrest, rfl⟩
      · rintro ⟨e', rest', h, -, rfl⟩
        cases h
        rfl
    · have hne : (skip ((char? ';' rest).getD rest)).isEmpty = false := List.isEmpty_eq_false_iff.mpr hrest
      rw [hne]
      constructor
      · intro h
        cases h
      · rintro ⟨e', rest', h, hempty, -⟩
        cases h
        exact absurd hempty hrest

/-- **The levels of operators are kept.** A text that writes an expression down, with an operand between
parentheses at least where its operator is looser than its place asks for, is read as that expression. -/
theorem GraphPattern.parse_wording {e : Expr} {t : List Char} (h : e.Wording 0 t) :
    parse ("(a) WHERE " ++ String.ofList t) = .ok (nodeWhere e) := by
  have hread : Parser.expr (' ' :: (t ++ [])) = .ok (e, []) := h.reads.run_space stops_nil
  rw [List.append_nil] at hread
  exact parse_where.mpr ⟨e, [], hread, rfl, rfl⟩

/-- A product in a sum in a comparison, next to a test of a negation. -/
theorem GraphPattern.parse_wording_mixed :
    parse "(a) WHERE 1+2 * a.x=7 or not (TRUE) IS NULL" =
      .ok (nodeWhere (.binary .or
        (.binary .eq
          (.binary .add (.literal (.integer 1))
            (.binary .mul (.literal (.integer 2)) (.property "a" "x")))
          (.literal (.integer 7)))
        (.unary .not (.unary .isNull (.literal (.boolean true)))))) := by
  have hspace := isBreak_space
  have hdigit {level : Nat} {c : Char} {i : Int64} (hc : c.isDigit = true)
      (hi : (Number.digitsValue [c] : Int) = i.toInt) :
      Expr.Wording level (.literal (.integer i)) [c] :=
    .integer (List.cons_ne_nil c []) (by simpa using hc) hi
  have hproperty : Expr.Wording 7 (.property "a" "x") "a.x".toList :=
    .property ⟨⟨'a', [], rfl, by decide, by simp⟩, by decide⟩ (by decide)
      ⟨'x', [], rfl, by decide, by simp⟩ isGap_nil isGap_nil
  have hproduct : Expr.Wording 6 (.binary .mul (.literal (.integer 2)) (.property "a" "x"))
      "2 * a.x".toList :=
    .binary (by decide) (hdigit (c := '2') rfl rfl)
      (.symbol (w := "*") (by decide) hspace.gap hspace.gap) hproperty
  have hsum : Expr.Wording 5 (.binary .add (.literal (.integer 1))
      (.binary .mul (.literal (.integer 2)) (.property "a" "x"))) "1+2 * a.x".toList :=
    .binary (by decide) (hdigit (c := '1') rfl rfl) (.symbol (w := "+") (by decide) isGap_nil isGap_nil) hproduct
  have hcomparison : Expr.Wording 0 (.binary .eq (.binary .add (.literal (.integer 1))
      (.binary .mul (.literal (.integer 2)) (.property "a" "x"))) (.literal (.integer 7)))
      "1+2 * a.x=7".toList :=
    @Expr.Wording.binary 0 .eq _ _ _ _ _ (by decide) hsum (.symbol (w := "=") (by decide) isGap_nil isGap_nil)
      (hdigit (c := '7') rfl rfl)
  have htrue : Expr.Wording 5 (.literal (.boolean true)) "(TRUE)".toList :=
    .parentheses (t := "TRUE".toList) (.word (k := "true") (.head _) rfl) isGap_nil isGap_nil
  have htest : Expr.Wording 3 (.unary .isNull (.literal (.boolean true))) "(TRUE) IS NULL".toList :=
    .test (u := " IS NULL".toList) rfl (by decide) htrue
      (.cons (w := "IS".toList) hspace rfl (.cons (w := "NULL".toList) hspace rfl .nil))
  have hnot : Expr.Wording 1 (.unary .not (.unary .isNull (.literal (.boolean true))))
      "not (TRUE) IS NULL".toList :=
    .not (w := "not".toList) (by decide) htest rfl hspace
  have hor : BinaryOp.or.Between " or ".toList :=
    .words (t := " or".toList) (by decide) (.cons (w := "or".toList) hspace rfl .nil) hspace
  exact parse_wording (t := "1+2 * a.x=7 or not (TRUE) IS NULL".toList)
    (@Expr.Wording.binary 0 .or _ _ _ _ _ (by decide) hcomparison hor hnot)

end GraphPatterns
