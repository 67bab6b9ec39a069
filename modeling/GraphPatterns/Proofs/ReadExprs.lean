/-
Expressions are read back. The text of an expression puts every binary operator and every test between
parentheses, so the operands of an operator are read one level at a time: below its own level there is
no further operator, and above it the closing parenthesis comes next. `NOT` stands without parentheses
and takes a whole comparison after it; where an operator that binds tighter stands around it, the text
says something else.
-/
import GraphPatterns.Proofs.ReadValues

namespace GraphPatterns

/-! ## Expressions that can be read back -/

/-- Whether the operator joins truth values. -/
def BinaryOp.isLogical : BinaryOp → Bool
  | .and | .or | .xor => true
  | _ => false

/-- A value that is written down as a literal: lists are expressions of their own, and the sign of a
number is an operator. -/
def Value.IsLiteral : Value → Prop
  | .list _ => False
  | .integer i => 0 ≤ i.toInt
  | _ => True

namespace Parser

/-- Whether a name is a keyword, in any case of letters. -/
def spells (name keyword : String) : Bool := sameLetters name.toList keyword.toList

/-- A name that no literal has. -/
structure IsVariable (name : String) : Prop where
  isName : IsName name
  noLiteral : ∀ k ∈ ["true", "false", "null"], spells name k = false

end Parser

namespace Expr

open GraphPatterns.Parser

def isNegation : Expr → Bool
  | .unary .not _ => true
  | _ => false

mutual

/-- An expression of the language: with names where names stand, and literals that can be written. -/
def WellFormed : Expr → Prop
  | .literal v => v.IsLiteral
  | .var name => IsVariable name
  | .property name key => IsVariable name ∧ IsName key
  | .binary _ l r => WellFormed l ∧ WellFormed r
  | .unary _ e => WellFormed e
  | .list items => AllWellFormed items

def AllWellFormed : List Expr → Prop
  | [] => True
  | e :: rest => WellFormed e ∧ AllWellFormed rest

end

mutual

/-- An expression whose text says what it is: its literals are printable, no variable is spelled `NOT`,
and `NOT` stands only at the top or directly under `NOT`, `AND`, `OR`, `XOR` or a list. -/
def Printable : Expr → Prop
  | .literal v => v.Printable
  | .var name => spells name "NOT" = false
  | .property name _ => spells name "NOT" = false
  | .binary op l r =>
    Printable l ∧ Printable r ∧
      (op.isLogical = false → l.isNegation = false ∧ r.isNegation = false)
  | .unary op e => Printable e ∧ (op ≠ .not → e.isNegation = false)
  | .list items => AllPrintable items

def AllPrintable : List Expr → Prop
  | [] => True
  | e :: rest => Printable e ∧ AllPrintable rest

end

/-! ## Texts -/

theorem renderList_eq (items : List Expr) : renderList items = items.map render := by
  induction items with
  | nil => rfl
  | cons e items ih => rw [renderList, ih, List.map_cons]

theorem allWellFormed_iff {items : List Expr} : AllWellFormed items ↔ ∀ e ∈ items, e.WellFormed := by
  induction items with
  | nil => exact ⟨fun _ _ h => (List.not_mem_nil h).elim, fun _ => by rw [AllWellFormed]; trivial⟩
  | cons e items ih => rw [AllWellFormed, ih, List.forall_mem_cons]

theorem toList_render_list (items : List Expr) :
    (render (.list items)).toList =
      '[' :: ([',', ' '].intercalate (items.map fun e => e.render.toList) ++ [']']) := by
  rw [render, renderList_eq, String.toList_append, String.toList_append, String.toList_intercalate,
    List.map_map]
  rfl

theorem toList_render_binary (op : BinaryOp) (l r : Expr) :
    (render (.binary op l r)).toList =
      '(' :: (l.render.toList ++ ' ' :: (op.render.toList ++ ' ' :: r.render.toList) ++ [')']) := by
  simp [render, String.toList_append]

theorem toList_render_test {op : UnaryOp} (hop : op.isTest = true) (e : Expr) :
    (render (.unary op e)).toList = '(' :: (e.render.toList ++ ' ' :: op.render.toList ++ [')']) := by
  simp [render, hop, String.toList_append]

theorem toList_render_not (e : Expr) :
    (render (.unary .not e)).toList = 'N' :: 'O' :: 'T' :: ' ' :: e.render.toList := by
  simp [render, UnaryOp.isTest, UnaryOp.render, String.toList_append]

theorem toList_render_neg (e : Expr) :
    (render (.unary .neg e)).toList = '-' :: ' ' :: e.render.toList := by
  simp [render, UnaryOp.isTest, UnaryOp.render, String.toList_append]

theorem toList_render_property (name key : String) :
    (render (.property name key)).toList = name.toList ++ '.' :: key.toList := by
  simp [render, String.toList_append]

end Expr

namespace Parser

/-! ## Operators -/

variable {s rest : List Char} {inner : Parse Expr}

abbrev productOperator : Operator := oneOf [symbol "*" .mul, symbol "/" .div, symbol "%" .mod]

abbrev sumOperator : Operator := oneOf [symbol "+" .add, symbol "-" .sub]

/-- A text at which an operand of `NOT`, `AND`, `OR` and `XOR` ends. -/
structure Pauses (rest : List Char) : Prop where
  ends : Ends rest
  product : productOperator rest = none
  sum : sumOperator rest = none
  test : keyword? "IS" rest = none
  comparator : comparator rest = .ok none

theorem Closes.pauses (h : Closes rest) : Pauses rest := by
  refine ⟨h.ends, ?_, ?_, ?_, ?_⟩ <;> rcases h.cases with rfl | ⟨r, rfl | rfl | rfl | rfl⟩ <;> rfl

theorem Closes.word (h : Closes rest) {k : String} {op : BinaryOp} (hk : k.toList ≠ []) :
    word k op rest = none := by
  have hname : NameEnds (skip rest) := by
    rcases h.cases with rfl | ⟨r, rfl | rfl | rfl | rfl⟩ <;> exact h.nameEnds
  rw [Parser.word, keyword?_eq_none hname hk, Option.map_none]

/-- An operator with a space on both sides. -/
def spaced (op : BinaryOp) (rest : List Char) : List Char := ' ' :: (op.render.toList ++ ' ' :: rest)

theorem ends_spaced (op : BinaryOp) (rest : List Char) : Ends (spaced op rest) := by
  refine ⟨fun c hc => ?_, by cases op <;> rfl⟩
  cases hc
  rfl

theorem productOperator_spaced (op : BinaryOp) (rest : List Char) :
    productOperator (spaced op rest) = if op ∈ [.mul, .div, .mod] then some (op, ' ' :: rest) else none := by
  cases op <;> rfl

theorem sumOperator_spaced (op : BinaryOp) (rest : List Char) :
    sumOperator (spaced op rest) = if op ∈ [.add, .sub] then some (op, ' ' :: rest) else none := by
  cases op <;> rfl

theorem is_spaced (op : BinaryOp) (rest : List Char) : keyword? "IS" (spaced op rest) = none := by
  cases op <;> rfl

theorem comparator_spaced {op : BinaryOp} (hop : op ∉ [.mul, .div, .mod, .add, .sub]) (rest : List Char) :
    comparator (spaced op rest) = .ok (if op.isLogical then none else some (op, ' ' :: rest)) := by
  cases op <;> first | rfl | exact absurd (by decide) hop

theorem word_spaced {op op' : BinaryOp} (hop : op.isLogical = true) (hop' : op'.isLogical = true)
    (rest : List Char) :
    word op'.render op' (spaced op rest) = if op' = op then some (op, ' ' :: rest) else none := by
  cases op <;> cases hop <;> cases op' <;> cases hop' <;> rfl

theorem pauses_spaced {op : BinaryOp} (hop : op.isLogical = true) (rest : List Char) :
    Pauses (spaced op rest) := by
  refine ⟨ends_spaced op rest, ?_, ?_, is_spaced op rest, ?_⟩ <;> cases op <;> cases hop <;> rfl

/-! ## Operands -/

section

variable {operator : Operator} {operand : Parse Expr} {e l r : Expr} {op : BinaryOp}

theorem chain_single (h : operand s = .ok (e, rest)) (hend : operator rest = none) :
    chain operator operand s = .ok (e, rest) := by
  rw [chain, h, ok_bind]
  dsimp only
  cases rest.length with
  | zero => rfl
  | succ bound => rw [chainFrom, hend]

theorem chain_pair {s₁ s₂ : List Char} (hl : operand s = .ok (l, s₁))
    (hop : operator s₁ = some (op, s₂)) (hs₁ : s₁ ≠ []) (hr : operand s₂ = .ok (r, rest))
    (hend : operator rest = none) : chain operator operand s = .ok (.binary op l r, rest) := by
  obtain ⟨c, t, rfl⟩ := List.exists_cons_of_ne_nil hs₁
  rw [chain, hl, ok_bind]
  dsimp only
  rw [List.length_cons, chainFrom, hop]
  dsimp only
  rw [hr, ok_bind]
  dsimp only
  cases t.length with
  | zero => rfl
  | succ bound => rw [chainFrom, hend]

theorem prefixed_none {operator : List Char → Option (List Char)} {op : UnaryOp}
    (hs : operator s = none) (bound : Nat) : prefixed operator op operand bound s = operand s := by
  cases bound with
  | zero => rfl
  | succ bound => rw [prefixed, hs]

theorem sum_of_signed (h : signed inner s = .ok (e, rest)) (hproduct : productOperator rest = none)
    (hsum : sumOperator rest = none) : sum inner s = .ok (e, rest) :=
  chain_single (chain_single h hproduct) hsum

theorem comparison_of_sum (h : Parser.sum inner s = .ok (e, rest)) (htest : keyword? "IS" rest = none)
    (hcomparator : comparator rest = .ok none) : comparison inner s = .ok (e, rest) := by
  rw [comparison, h, ok_bind]
  dsimp only
  rw [htest]
  dsimp only
  rw [hcomparator, ok_bind]
  rfl

theorem negation_of_comparison (hs : keyword? "NOT" s = none) (h : comparison inner s = .ok (e, rest)) :
    negation inner s = .ok (e, rest) := by
  rw [negation, prefixed_none hs, h]

theorem exprOver_of_negation (h : negation inner s = .ok (e, rest)) (hrest : Closes rest) :
    exprOver inner s = .ok (e, rest) :=
  chain_single (chain_single (chain_single h (hrest.word (by decide))) (hrest.word (by decide)))
    (hrest.word (by decide))

theorem exprOver_of_comparison (hs : keyword? "NOT" s = none)
    (h : comparison inner s = .ok (e, rest)) (hrest : Closes rest) :
    exprOver inner s = .ok (e, rest) :=
  exprOver_of_negation (negation_of_comparison hs h) hrest

end

/-- Operands of an operator that does not join truth values are read one sign at a time. -/
theorem exprOver_operands {op : BinaryOp} (hop : op.isLogical = false) {tl tr : List Char} {l r : Expr}
    (hl : Reads (signed inner) Ends tl l) (hr : Reads (signed inner) Ends tr r)
    (hnot : ∀ {s rest}, skip s = tl ++ rest → Ends rest → keyword? "NOT" s = none) :
    Reads (exprOver inner) Closes (tl ++ spaced op tr) (.binary op l r) := by
  refine ⟨hl.starts.append _, fun {s rest} hs hrest => ?_⟩
  have hspaced : spaced op tr ++ rest = spaced op (tr ++ rest) := by
    simp only [spaced, List.cons_append, List.append_assoc]
  rw [List.append_assoc, hspaced] at hs
  have hends := ends_spaced op (tr ++ rest)
  have hleft := hl.run hs hends
  have hright := hr.run_space hrest.ends
  refine exprOver_of_comparison (hnot hs hends) ?_ hrest
  by_cases hproduct : op ∈ [.mul, .div, .mod]
  · have hop : productOperator (spaced op (tr ++ rest)) = some (op, ' ' :: (tr ++ rest)) := by
      rw [productOperator_spaced, if_pos hproduct]
    exact comparison_of_sum (chain_single (chain_pair hleft hop (List.cons_ne_nil _ _) hright
      hrest.pauses.product) hrest.pauses.sum) hrest.pauses.test hrest.pauses.comparator
  have hproduct : productOperator (spaced op (tr ++ rest)) = none := by
    rw [productOperator_spaced, if_neg hproduct]
  by_cases hsum : op ∈ [.add, .sub]
  · have hop : sumOperator (spaced op (tr ++ rest)) = some (op, ' ' :: (tr ++ rest)) := by
      rw [sumOperator_spaced, if_pos hsum]
    exact comparison_of_sum (chain_pair (chain_single hleft hproduct) hop (List.cons_ne_nil _ _)
      (chain_single hright hrest.pauses.product) hrest.pauses.sum) hrest.pauses.test
      hrest.pauses.comparator
  have hsum : sumOperator (spaced op (tr ++ rest)) = none := by
    rw [sumOperator_spaced, if_neg hsum]
  have hcomparator : comparator (spaced op (tr ++ rest)) = .ok (some (op, ' ' :: (tr ++ rest))) := by
    rw [comparator_spaced, hop]
    · rfl
    · simp_all
  rw [comparison, sum_of_signed hleft hproduct hsum, ok_bind]
  dsimp only
  rw [is_spaced]
  dsimp only
  rw [hcomparator, ok_bind]
  dsimp only
  rw [sum_of_signed hright hrest.pauses.product hrest.pauses.sum]
  rfl

/-- Operands of an operator that joins truth values may be negations. -/
theorem exprOver_truths {op : BinaryOp} (hop : op.isLogical = true) {tl tr : List Char} {l r : Expr}
    (hl : Reads (negation inner) Pauses tl l) (hr : Reads (negation inner) Pauses tr r) :
    Reads (exprOver inner) Closes (tl ++ spaced op tr) (.binary op l r) := by
  refine ⟨hl.starts.append _, fun {s rest} hs hrest => ?_⟩
  have hspaced : spaced op tr ++ rest = spaced op (tr ++ rest) := by
    simp only [spaced, List.cons_append, List.append_assoc]
  rw [List.append_assoc, hspaced] at hs
  have hleft := hl.run hs (pauses_spaced hop _)
  have hright := hr.run_space hrest.pauses
  have hne : spaced op (tr ++ rest) ≠ [] := List.cons_ne_nil _ _
  have hend {k : String} {op' : BinaryOp} (hk : k.toList ≠ []) : word k op' rest = none := hrest.word hk
  have hword (op' : BinaryOp) (hop' : op'.isLogical = true) := word_spaced hop hop' (tr ++ rest)
  cases op with
  | and =>
    exact chain_single (chain_single (chain_pair hleft (hword .and rfl) hne hright
      (hend (by decide))) (hend (by decide))) (hend (by decide))
  | xor =>
    exact chain_single (chain_pair (chain_single hleft (hword .and rfl))
      (hword .xor rfl) hne (chain_single hright (hend (by decide))) (hend (by decide))) (hend (by decide))
  | or =>
    exact chain_pair (chain_single (chain_single hleft (hword .and rfl)) (hword .xor rfl))
      (hword .or rfl) hne
      (chain_single (chain_single hright (hend (by decide))) (hend (by decide))) (hend (by decide))
  | _ => cases hop

theorem exprOver_test {op : UnaryOp} (hop : op.isTest = true) {t : List Char} {e : Expr}
    (he : Reads (signed inner) Ends t e)
    (hnot : ∀ {s rest}, skip s = t ++ rest → Ends rest → keyword? "NOT" s = none) :
    Reads (exprOver inner) Closes (t ++ ' ' :: op.render.toList) (.unary op e) := by
  refine ⟨he.starts.append _, fun {s rest} hs hrest => ?_⟩
  rw [List.append_assoc] at hs
  have htest : Ends (' ' :: op.render.toList ++ rest) ∧
      productOperator (' ' :: op.render.toList ++ rest) = none ∧
      sumOperator (' ' :: op.render.toList ++ rest) = none := by
    cases op <;> cases hop <;> exact ⟨⟨by rintro c ⟨⟩; rfl, rfl⟩, rfl, rfl⟩
  refine exprOver_of_comparison (hnot hs htest.1) ?_ hrest
  rw [comparison, sum_of_signed (he.run hs htest.1) htest.2.1 htest.2.2, ok_bind]
  have hnull : expectKeyword "NULL" (' ' :: 'N' :: 'U' :: 'L' :: 'L' :: rest) = .ok rest := by
    rcases hrest.cases with rfl | ⟨r, rfl | rfl | rfl | rfl⟩ <;> rfl
  cases op with
  | isNull =>
    have his : keyword? "IS" (' ' :: UnaryOp.isNull.render.toList ++ rest) =
        some (' ' :: 'N' :: 'U' :: 'L' :: 'L' :: rest) := rfl
    have hnot : keyword? "NOT" (' ' :: 'N' :: 'U' :: 'L' :: 'L' :: rest) = none := by
      rcases hrest.cases with rfl | ⟨r, rfl | rfl | rfl | rfl⟩ <;> rfl
    simp only [his, hnot, hnull, ok_bind]
    rfl
  | isNotNull =>
    have his : keyword? "IS" (' ' :: UnaryOp.isNotNull.render.toList ++ rest) =
        some (' ' :: 'N' :: 'O' :: 'T' :: ' ' :: 'N' :: 'U' :: 'L' :: 'L' :: rest) := rfl
    have hnot : keyword? "NOT" (' ' :: 'N' :: 'O' :: 'T' :: ' ' :: 'N' :: 'U' :: 'L' :: 'L' :: rest) =
        some (' ' :: 'N' :: 'U' :: 'L' :: 'L' :: rest) := rfl
    simp only [his, hnot, hnull, ok_bind]
    rfl
  | _ => cases hop

/-! ## Operands without operators -/

theorem keyword?_of_symbol {c : Char} {r : List Char} {k : String} (h : skip s = c :: r)
    (hc : isNamePart c = false) (hk : k.toList ≠ []) : keyword? k s = none := by
  refine keyword?_eq_none (fun d hd => ?_) hk
  rw [h, List.head?_cons, Option.mem_some_iff] at hd
  exact hd ▸ hc

section

variable {c : Char} {r : List Char} {e : Expr}

theorem primary_parentheses {s' : List Char} (hs : skip s = '(' :: r) (h : inner r = .ok (e, s'))
    (hs' : skip s' = ')' :: rest) : primary inner s = .ok (e, rest) := by
  rw [primary, char?_of_skip hs]
  dsimp only
  rw [h, ok_bind]
  dsimp only
  rw [expectChar_of_skip hs', ok_bind]
  rfl

theorem primary_text {t : String} (hs : skip s = '\'' :: (t.toList ++ '\'' :: rest))
    (ht : '\'' ∉ t.toList ∧ '\\' ∉ t.toList) :
    primary inner s = .ok (.literal (.text t), rest) := by
  rw [primary, char?_eq_none hs (by decide), char?_eq_none hs (by decide),
    string?_of_skip hs ht.1 ht.2]
  rfl

theorem primary_digit {i : Int64} (hs : skip s = (toString i.toInt).toList ++ rest)
    (hc : skip s = c :: r) (hdigit : c.isDigit = true) (hrest : Ends rest) :
    primary inner s = .ok (.literal (.integer i), rest) := by
  rw [primary, char?_eq_none hc (ne_of_test hdigit rfl), char?_eq_none hc (ne_of_test hdigit rfl),
    string?_eq_none hc (ne_of_test hdigit rfl) (ne_of_test hdigit rfl)]
  dsimp only
  rw [isAtDigit_of_skip hc, hdigit, if_pos rfl, number_of_skip hs hrest]
  rfl

theorem primary_word (hs : skip s = c :: r) (hc : isNameStart c = true) :
    (∀ v s', literal? s = some (v, s') → primary inner s = .ok (.literal v, s')) ∧
      (literal? s = none → primary inner s = reference s) := by
  have hpart := isNamePart_of_isNameStart hc
  rw [primary, char?_eq_none hs (ne_of_test hpart rfl), char?_eq_none hs (ne_of_test hpart rfl),
    string?_eq_none hs (ne_of_test hpart rfl) (ne_of_test hpart rfl)]
  dsimp only
  rw [isAtDigit_of_skip hs, isDigit_of_isNameStart hc, if_neg Bool.false_ne_true]
  constructor
  · intro v s' h
    rw [h]
  · intro h
    rw [h]

theorem IsVariable.literal? {name : String} (h : IsVariable name) (hs : skip s = name.toList ++ rest)
    (hrest : NameEnds rest) : literal? s = none := by
  have hwords := h.noLiteral
  simp only [List.mem_cons, List.not_mem_nil, or_false, forall_eq_or_imp, forall_eq, spells] at hwords
  rw [literal?_of_skip hs h.isName.isNamePart hrest, hwords.1, hwords.2.1, hwords.2.2]
  rfl

theorem primary_var {name : String} (hname : IsVariable name) (hs : skip s = name.toList ++ rest)
    (hrest : Ends rest) : primary inner s = .ok (.var name, rest) := by
  obtain ⟨c, cs, hcs, hc, -⟩ := hname.isName
  have hskip : skip s = c :: (cs ++ rest) := by rw [hs, hcs, List.cons_append]
  rw [(primary_word hskip hc).2 (hname.literal? hs hrest.1), reference, identifier_of_skip hname.isName hs hrest.1, ok_bind]
  dsimp only
  rw [char?_eq_none_iff.mpr hrest.2]
  rfl

theorem primary_property {name key : String} (hname : IsVariable name) (hkey : IsName key)
    (hs : skip s = name.toList ++ '.' :: (key.toList ++ rest)) (hrest : Ends rest) :
    primary inner s = .ok (.property name key, rest) := by
  obtain ⟨c, cs, hcs, hc, -⟩ := hname.isName
  have hskip : skip s = c :: (cs ++ '.' :: (key.toList ++ rest)) := by rw [hs, hcs, List.cons_append]
  have hdot : NameEnds ('.' :: (key.toList ++ rest)) := by
    rintro c ⟨⟩
    rfl
  rw [(primary_word hskip hc).2 (hname.literal? hs hdot), reference, identifier_of_skip hname.isName hs hdot, ok_bind]
  dsimp only
  rw [char?_of_skip (skip_cons rfl (by decide))]
  dsimp only
  rw [identifier_of_skip hkey (hkey.starts.skip_append rest) hrest.1, ok_bind]
  rfl

end

/-! ## Whole expressions -/

theorem sameLetters_of_isDigit {c : Char} {r : List Char} (hc : c.isDigit = true) {k : List Char}
    (hk : k.head?.any (fun d => d.toLower.isDigit) = false) : sameLetters (c :: r) k = false := by
  have hsame : c.toLower = c := by
    have hcode : c.toNat ≤ 57 := by
      simp only [Char.isDigit, Bool.and_eq_true, decide_eq_true_eq, UInt32.le_iff_toNat_le] at hc
      exact hc.2
    refine dif_neg ?_
    rintro ⟨h, -⟩
    have : 65 ≤ c.toNat := UInt32.le_iff_toNat_le.mp h
    omega
  cases k with
  | nil => rfl
  | cons d k =>
    refine beq_eq_false_iff_ne.mpr fun h => ne_of_test hc hk ?_
    rw [← hsame]
    exact (List.cons.inj h).1

end Parser

namespace Expr

open GraphPatterns.Parser

/-- What stands at the start of an operand that is not a negation is not the word `NOT`. -/
theorem keyword?_render {e : Expr} (hw : e.WellFormed) (hp : e.Printable) (he : e.isNegation = false)
    {s rest : List Char} (hs : skip s = e.render.toList ++ rest) (hrest : Ends rest) :
    keyword? "NOT" s = none := by
  have hspells : "NOT".toList ≠ [] := by decide
  have hvariable {name : String} {rest : List Char} (hname : IsVariable name)
      (hp : spells name "NOT" = false) (hs : skip s = name.toList ++ rest) (hrest : NameEnds rest) :
      keyword? "NOT" s = none := by
    rw [keyword?_of_skip hs hname.isName.isNamePart hrest, ← spells, hp]
    rfl
  cases e with
  | literal v =>
    cases v with
    | null => exact keyword?_of_skip hs (List.all_eq_true.mp rfl) hrest.1
    | boolean b => cases b <;> exact keyword?_of_skip hs (List.all_eq_true.mp rfl) hrest.1
    | integer i =>
      rw [render, Value.render, toList_integer hw] at hs
      obtain ⟨c, r, hdigits, hc⟩ := exists_toDigits i.toInt.toNat
      rw [keyword?_of_skip hs (fun c hc => isNamePart_of_isDigit (isDigit_of_mem_toDigits c hc)) hrest.1,
        hdigits, sameLetters_of_isDigit hc rfl]
      rfl
    | real x => exact hp.elim
    | text t =>
      rw [render, Value.toList_render_text] at hs
      exact keyword?_of_symbol hs rfl hspells
    | list items => exact hw.elim
  | var name => exact hvariable hw hp hs hrest.1
  | property name key =>
    rw [toList_render_property, List.append_assoc] at hs
    exact hvariable hw.1 hp hs (by rintro c ⟨⟩; rfl)
  | binary op l r =>
    rw [toList_render_binary] at hs
    exact keyword?_of_symbol hs rfl hspells
  | unary op e =>
    cases op with
    | not => cases he
    | neg =>
      rw [toList_render_neg] at hs
      exact keyword?_of_symbol hs rfl hspells
    | _ =>
      rw [toList_render_test rfl] at hs
      exact keyword?_of_symbol hs rfl hspells
  | list items =>
    rw [toList_render_list] at hs
    exact keyword?_of_symbol hs rfl hspells

/-- The expression is read back where brackets are nested to a depth: as an operand with a sign if it is
not a negation, and after any number of negations. -/
structure ReadsBack (e : Expr) (depth : Nat) : Prop where
  signed : e.isNegation = false → ∀ {bound}, e.render.toList.length ≤ bound →
    Reads (prefixed (char? '-') .neg (primary (exprWithin depth)) bound) Ends e.render.toList e
  negated : ∀ {bound}, e.render.toList.length ≤ bound →
    Reads (prefixed (keyword? "NOT") .not (comparison (exprWithin depth)) bound) Pauses e.render.toList e

namespace ReadsBack

variable {e : Expr} {depth : Nat}

theorem reads_signed (h : e.ReadsBack depth) (he : e.isNegation = false) :
    Reads (Parser.signed (exprWithin depth)) Ends e.render.toList e := by
  refine ⟨(h.signed he (Nat.le_refl _)).starts, fun {s rest} hs hrest => ?_⟩
  have hlength := length_skip_le s
  rw [hs, List.length_append] at hlength
  exact (h.signed he (by omega)).run hs hrest

theorem reads_negation (h : e.ReadsBack depth) :
    Reads (negation (exprWithin depth)) Pauses e.render.toList e := by
  refine ⟨(h.negated (Nat.le_refl _)).starts, fun {s rest} hs hrest => ?_⟩
  have hlength := length_skip_le s
  rw [hs, List.length_append] at hlength
  exact (h.negated (by omega)).run hs hrest

theorem reads_expr (h : e.ReadsBack depth) :
    Reads (exprWithin (depth + 1)) Closes e.render.toList e :=
  ⟨h.reads_negation.starts, fun hs hrest =>
    exprOver_of_negation (h.reads_negation.run hs hrest.pauses) hrest⟩

/-- An operand with a sign that is not a negation is also read where negations may stand. -/
theorem of_signed (hw : e.WellFormed) (hp : e.Printable) (he : e.isNegation = false)
    (h : ∀ {bound}, e.render.toList.length ≤ bound →
      Reads (prefixed (char? '-') .neg (primary (exprWithin depth)) bound) Ends e.render.toList e) :
    e.ReadsBack depth := by
  refine ⟨fun _ => h, fun {bound} _ => ⟨(h (Nat.le_refl _)).starts, fun {s rest} hs hrest => ?_⟩⟩
  have hlength := length_skip_le s
  rw [hs, List.length_append] at hlength
  rw [prefixed_none (keyword?_render hw hp he hs hrest.ends)]
  have hsigned : Parser.signed (exprWithin depth) s = .ok (e, rest) := (h (by omega)).run hs hrest.ends
  exact comparison_of_sum (sum_of_signed hsigned hrest.product hrest.sum) hrest.test hrest.comparator

/-- An operand without a sign is also read where signs may stand. -/
theorem of_primary (hw : e.WellFormed) (hp : e.Printable) (he : e.isNegation = false)
    (hstarts : Starts e.render.toList) (hsign : e.render.toList.head? ≠ some '-')
    (h : ∀ {s rest}, skip s = e.render.toList ++ rest → Ends rest →
      primary (exprWithin depth) s = .ok (e, rest)) : e.ReadsBack depth := by
  refine of_signed hw hp he fun {bound} _ => ⟨hstarts, fun {s rest} hs hrest => ?_⟩
  obtain ⟨c, r, hc, -⟩ := hstarts
  rw [hc, List.cons_append] at hs
  rw [hc] at hsign
  rw [prefixed_none (char?_eq_none hs fun heq => hsign (congrArg some heq))]
  exact h (hs.trans (by rw [hc, List.cons_append])) hrest

theorem of_parentheses {t : List Char} (hw : e.WellFormed) (hp : e.Printable)
    (he : e.isNegation = false) (htext : e.render.toList = '(' :: (t ++ [')']))
    (h : Reads (exprWithin depth) Closes t e) : e.ReadsBack depth := by
  refine of_primary hw hp he ⟨'(', _, htext, rfl, by decide⟩ (by rw [htext]; simp) fun {s rest} hs _ => ?_
  rw [htext, List.cons_append, List.append_assoc] at hs
  have hclose : Closes (')' :: rest) := .of_cons (by simp) rest
  exact primary_parentheses hs (h.run_append hclose) rfl

theorem of_literal {v : Value} (hw : v.IsLiteral) (hp : v.Printable) :
    (Expr.literal v).ReadsBack depth := by
  have hword (hv : v = .null ∨ ∃ b, v = .boolean b) : (Expr.literal v).ReadsBack depth := by
    refine of_primary hw hp rfl (Value.starts_render _) ?_ fun {s rest} hs hrest => ?_
    · rcases hv with rfl | ⟨b, rfl⟩
      · decide
      · cases b <;> decide
    · obtain ⟨hliteral, c, r, hc, hstart⟩ := literal?_render v hv hs hrest.1
      exact (primary_word hc hstart).1 v _ hliteral
  cases v with
  | null => exact hword (.inl rfl)
  | boolean b => exact hword (.inr ⟨b, rfl⟩)
  | integer i =>
    obtain ⟨c, r, hdigits, hc⟩ := exists_toDigits i.toInt.toNat
    have htext : (Expr.literal (.integer i)).render.toList = c :: r := (toList_integer hw).trans hdigits
    refine of_primary hw hp rfl (Value.starts_render _) ?_ fun {s rest} hs hrest => ?_
    · rw [htext]
      exact fun h => ne_of_test hc rfl (Option.some.inj h)
    · exact primary_digit hs (hs.trans (by rw [htext, List.cons_append])) hc hrest
  | real x => exact hp.elim
  | text t =>
    have htext : (Expr.literal (.text t)).render.toList = _ := Value.toList_render_text t
    refine of_primary hw hp rfl (Value.starts_render _) (by rw [htext]; simp) fun {s rest} hs _ => ?_
    rw [htext, List.cons_append, List.append_assoc] at hs
    exact primary_text hs hp
  | list items => exact hw.elim

theorem of_reference {name : String} (hname : IsName name) (hw : e.WellFormed) (hp : e.Printable)
    (he : e.isNegation = false) {t : List Char} (htext : e.render.toList = name.toList ++ t)
    (h : ∀ {s rest}, skip s = e.render.toList ++ rest → Ends rest →
      primary (exprWithin depth) s = .ok (e, rest)) : e.ReadsBack depth := by
  obtain ⟨c, cs, hcs, hc, -⟩ := id hname
  refine of_primary hw hp he (htext ▸ hname.starts.append t) ?_ h
  rw [htext, hcs]
  exact fun heq => ne_of_test hc rfl (Option.some.inj heq)

theorem of_binary {op : BinaryOp} {l r : Expr} (hw : (binary op l r).WellFormed)
    (hp : (binary op l r).Printable) (hl : l.ReadsBack depth) (hr : r.ReadsBack depth) :
    (binary op l r).ReadsBack (depth + 1) := by
  refine of_parentheses hw hp rfl (toList_render_binary op l r) ?_
  cases hop : op.isLogical with
  | true => exact exprOver_truths hop hl.reads_negation hr.reads_negation
  | false =>
    obtain ⟨hnl, hnr⟩ := hp.2.2 hop
    exact exprOver_operands hop (hl.reads_signed hnl) (hr.reads_signed hnr)
      fun hs hrest => keyword?_render hw.1 hp.1 hnl hs hrest

theorem of_test {op : UnaryOp} (hop : op.isTest = true) (hw : (unary op e).WellFormed)
    (hp : (unary op e).Printable) (h : e.ReadsBack depth) : (unary op e).ReadsBack (depth + 1) := by
  have hne : op ≠ .not := fun heq => by rw [heq] at hop; cases hop
  have hself : (unary op e).isNegation = false := by cases op <;> first | rfl | exact absurd rfl hne
  have hnot {s rest : List Char} : skip s = e.render.toList ++ rest → Ends rest →
      keyword? "NOT" s = none := keyword?_render (e := e) hw hp.1 (hp.2 hne)
  exact of_parentheses hw hp hself (toList_render_test hop e)
    (exprOver_test hop (h.reads_signed (hp.2 hne)) hnot)

theorem of_not (h : e.ReadsBack depth) : (unary .not e).ReadsBack depth := by
  refine ⟨fun hnot => Bool.noConfusion hnot, fun {bound} hbound => ?_⟩
  rw [toList_render_not] at hbound ⊢
  simp only [List.length_cons] at hbound
  obtain ⟨bound, rfl⟩ := Nat.exists_eq_add_one_of_ne_zero (Nat.ne_zero_of_lt hbound)
  refine ⟨⟨'N', _, rfl, rfl, by decide⟩, fun {s rest} hs hrest => ?_⟩
  have hnot : keyword? "NOT" s = some (' ' :: (e.render.toList ++ rest)) := by
    rw [keyword?, hs]
    rfl
  have hrun := (h.negated (by omega : e.render.toList.length ≤ bound)).run_space hrest
  rw [prefixed, hnot]
  dsimp only
  rw [hrun, ok_bind]
  rfl

theorem of_neg (hw : (unary .neg e).WellFormed) (hp : (unary .neg e).Printable) (h : e.ReadsBack depth) :
    (unary .neg e).ReadsBack depth := by
  refine of_signed hw hp rfl fun {bound} hbound => ?_
  rw [toList_render_neg] at hbound ⊢
  simp only [List.length_cons] at hbound
  obtain ⟨bound, rfl⟩ := Nat.exists_eq_add_one_of_ne_zero (Nat.ne_zero_of_lt hbound)
  refine ⟨⟨'-', _, rfl, rfl, by decide⟩, fun {s rest} hs hrest => ?_⟩
  have hsigned := h.signed (hp.2 (by decide)) (by omega : e.render.toList.length ≤ bound)
  rw [List.cons_append, List.cons_append] at hs
  rw [prefixed, char?_of_skip hs]
  dsimp only
  rw [hsigned.run_space hrest, ok_bind]
  rfl

theorem of_list {items : List Expr} (hw : (list items).WellFormed) (hp : (list items).Printable)
    (h : ∀ e ∈ items, e.ReadsBack depth) : (list items).ReadsBack (depth + 1) := by
  have htext := toList_render_list items
  refine of_primary hw hp rfl ⟨'[', _, htext, rfl, by decide⟩ (by rw [htext]; simp)
    fun {s rest} hs _ => ?_
  rw [htext, List.cons_append, List.append_assoc] at hs
  have hrun := itemsUntil_bind (List.mem_cons_of_mem _ List.mem_cons_self) id
    (fun e he => (h e he).reads_expr) (fun r => pure (Expr.list r.1, r.2)) rest rfl
  rw [List.map_id'] at hrun
  rw [primary, char?_eq_none hs (by decide), char?_of_skip hs]
  exact hrun

end ReadsBack

mutual

/-- A printable expression is read back from its text, by recursion on the expression: with brackets
around it, its parts are read at one depth less. -/
theorem readsBack (e : Expr) (hw : e.WellFormed) (hp : e.Printable) {depth : Nat}
    (hdepth : e.render.toList.length ≤ depth) : e.ReadsBack depth := by
  cases e with
  | literal v => exact .of_literal hw hp
  | var name =>
    exact .of_reference hw.isName hw hp rfl (List.append_nil _).symm fun hs hrest => primary_var hw hs hrest
  | property name key =>
    refine .of_reference hw.1.isName hw hp rfl (toList_render_property name key) fun {s rest} hs hrest => ?_
    rw [toList_render_property, List.append_assoc] at hs
    exact primary_property hw.1 hw.2 hs hrest
  | binary op l r =>
    rw [toList_render_binary] at hdepth
    simp only [List.length_cons, List.length_append] at hdepth
    obtain ⟨depth, rfl⟩ := Nat.exists_eq_add_one_of_ne_zero (Nat.ne_zero_of_lt hdepth)
    exact .of_binary hw hp (readsBack l hw.1 hp.1 (by omega)) (readsBack r hw.2 hp.2.1 (by omega))
  | unary op e =>
    cases hop : op.isTest with
    | true =>
      rw [toList_render_test hop] at hdepth
      simp only [List.length_cons, List.length_append] at hdepth
      obtain ⟨depth, rfl⟩ := Nat.exists_eq_add_one_of_ne_zero (Nat.ne_zero_of_lt hdepth)
      exact .of_test hop hw hp (readsBack e hw hp.1 (by omega))
    | false =>
      cases op with
      | not =>
        rw [toList_render_not] at hdepth
        simp only [List.length_cons] at hdepth
        exact .of_not (readsBack e hw hp.1 (by omega))
      | neg =>
        rw [toList_render_neg] at hdepth
        simp only [List.length_cons] at hdepth
        exact .of_neg hw hp (readsBack e hw hp.1 (by omega))
      | _ => cases hop
  | list items =>
    rw [toList_render_list] at hdepth
    simp only [List.length_cons, List.length_append] at hdepth
    obtain ⟨depth, rfl⟩ := Nat.exists_eq_add_one_of_ne_zero (Nat.ne_zero_of_lt hdepth)
    have hlength (e) (he : e ∈ items) : e.render.toList.length ≤ depth := by
      have := length_le_intercalate [',', ' '] (List.mem_map.mpr ⟨e, he, rfl⟩ :
        e.render.toList ∈ items.map fun e => e.render.toList)
      omega
    exact .of_list hw hp (readsBackAll items hw hp hlength)

theorem readsBackAll (items : List Expr) (hw : AllWellFormed items) (hp : AllPrintable items)
    {depth : Nat} (hdepth : ∀ e ∈ items, e.render.toList.length ≤ depth) :
    ∀ e ∈ items, e.ReadsBack depth := by
  cases items with
  | nil => exact fun e he => (List.not_mem_nil he).elim
  | cons e items =>
    rw [List.forall_mem_cons] at hdepth
    exact List.forall_mem_cons.mpr
      ⟨readsBack e hw.1 hp.1 hdepth.1, readsBackAll items hw.2 hp.2 hdepth.2⟩

end

/-- **Expressions are read back.** The text of a printable expression is read as the expression wherever
something closes after it. -/
theorem reads {e : Expr} (hw : e.WellFormed) (hp : e.Printable) :
    Reads Parser.expr Closes e.render.toList e := by
  refine ⟨(readsBack e hw hp (Nat.le_refl _)).reads_expr.starts, fun {s rest} hs hrest => ?_⟩
  have hlength := length_skip_le s
  rw [hs, List.length_append] at hlength
  exact (readsBack e hw hp (by omega : e.render.toList.length ≤ s.length)).reads_expr.run hs hrest

end Expr

end GraphPatterns
