/-
The wordings of expressions: the texts that write an expression down, by the levels of its operators.
An operand stands between parentheses where its operator binds less tightly than its place asks for, and
may stand between parentheses anywhere else. Blanks may stand between any two tokens, and must stand
where a word meets its neighbours. `Expr.Wording` is the grammar; it knows nothing of how texts are read.
-/
import GraphPatterns.Proofs.ReadExprs

namespace GraphPatterns

open GraphPatterns.Parser

/-! ## Blanks and words -/

/-- Blanks that may be missing. -/
def IsGap (g : List Char) : Prop := ∀ c ∈ g, Text.isBlank c = true

/-- Blanks that set a word off. -/
structure IsBreak (g : List Char) : Prop where
  gap : IsGap g
  nonempty : g ≠ []

theorem isGap_nil : IsGap [] := fun _ hc => (List.not_mem_nil hc).elim

theorem isBreak_space : IsBreak [' '] := ⟨List.forall_mem_singleton.mpr rfl, List.cons_ne_nil _ _⟩

/-- Words in any case of letters, each after a break. -/
inductive Words : List String → List Char → Prop
  | nil : Words [] []
  | cons {k ks g w t} : IsBreak g → sameLetters w k.toList = true → Words ks t →
      Words (k :: ks) (g ++ (w ++ t))

/-- Texts with commas between them. -/
inductive Separated : List (List Char) → List Char → Prop
  | nil : Separated [] []
  | single {t} : Separated [t] t
  | cons {t u ts g g' w} : IsGap g → IsGap g' → Separated (u :: ts) w →
      Separated (t :: u :: ts) (t ++ (g ++ ',' :: (g' ++ w)))

theorem Separated.length_le {ts : List (List Char)} {t : List Char} (h : Separated ts t) : ts.length ≤ t.length + 1 := by
  induction h with
  | nil => exact Nat.zero_le _
  | single => exact Nat.le_add_left 1 _
  | cons _ _ _ ih =>
    simp only [List.length_append, List.length_cons] at ih ⊢
    omega

theorem Separated.length_le_of_mem {ts : List (List Char)} {t u : List Char} (h : Separated ts t) (hu : u ∈ ts) :
    u.length ≤ t.length := by
  induction h with
  | nil => cases hu
  | single =>
    simp only [List.mem_singleton] at hu
    exact Nat.le_of_eq (congrArg List.length hu)
  | cons _ _ _ ih =>
    simp only [List.length_append, List.length_cons]
    rcases List.mem_cons.mp hu with rfl | hu
    · omega
    · have := ih hu
      omega

/-! ## Levels -/

namespace BinaryOp

/-- How tightly the operator binds: from 0 for `OR`, the loosest, to 6 for products. -/
def level : BinaryOp → Nat
  | .or => 0
  | .xor => 1
  | .and => 2
  | .add | .sub => 5
  | .mul | .div | .mod => 6
  | _ => 4

/-- The level that the left operand asks for. Operators of one level associate to the left, but
comparisons do not chain. -/
def leftLevel (op : BinaryOp) : Nat := if op.level = 4 then 5 else op.level

/-- The symbols that stand for the operator. -/
def symbols : BinaryOp → List String
  | .eq => ["="]
  | .ne => ["<>", "!="]
  | .lt => ["<"]
  | .le => ["<="]
  | .gt => [">"]
  | .ge => [">="]
  | .add => ["+"]
  | .sub => ["-"]
  | .mul => ["*"]
  | .div => ["/"]
  | .mod => ["%"]
  | _ => []

/-- The words that stand for the operator. -/
def words : BinaryOp → List String
  | .and => ["AND"]
  | .or => ["OR"]
  | .xor => ["XOR"]
  | .contains => ["CONTAINS"]
  | .startsWith => ["STARTS", "WITH"]
  | .endsWith => ["ENDS", "WITH"]
  | .isIn => ["IN"]
  | _ => []

/-- The text between two operands. -/
inductive Between : BinaryOp → List Char → Prop
  | symbol {op w g g'} : w ∈ op.symbols → IsGap g → IsGap g' → Between op (g ++ (w.toList ++ g'))
  | words {op t g} : op.words ≠ [] → Words op.words t → IsBreak g → Between op (t ++ g)

end BinaryOp

/-- The words of a test, which stand after its operand. -/
def UnaryOp.testWords : UnaryOp → List String
  | .isNull => ["IS", "NULL"]
  | .isNotNull => ["IS", "NOT", "NULL"]
  | _ => []

/-! ## Expressions -/

/-- The words for values, in any case of letters. -/
def Value.words : List (String × Value) :=
  [("true", .boolean true), ("false", .boolean false), ("null", .null)]

/-- The text writes the expression at a place where operators of the level and tighter ones may stand
without parentheses. The level of `NOT` is 3, that of comparisons and tests 4 and that of the sign 7. -/
inductive Expr.Wording : Nat → Expr → List Char → Prop
  | integer {level i digits} : digits ≠ [] → (∀ c ∈ digits, c.isDigit = true) →
      (Number.digitsValue digits : Int) = i.toInt → Wording level (.literal (.integer i)) digits
  | word {level k v w} : (k, v) ∈ Value.words → sameLetters w k.toList = true →
      Wording level (.literal v) w
  | var {level name} : IsVariable name → spells name "NOT" = false →
      Wording level (.var name) name.toList
  | property {level name key g g'} : IsVariable name → spells name "NOT" = false → IsName key →
      IsGap g → IsGap g' →
      Wording level (.property name key) (name.toList ++ (g ++ '.' :: (g' ++ key.toList)))
  | list {level t g g'} {items : List (Expr × List Char)} : (∀ p ∈ items, Wording 0 p.1 p.2) → Separated (items.map Prod.snd) t →
      IsGap g → IsGap g' →
      Wording level (.list (items.map Prod.fst)) ('[' :: (g ++ (t ++ (g' ++ [']']))))
  | parentheses {level e t g g'} : Wording 0 e t → IsGap g → IsGap g' →
      Wording level e ('(' :: (g ++ (t ++ (g' ++ [')']))))
  | not {level e t w g} : level ≤ 3 → Wording 3 e t → sameLetters w "NOT".toList = true → IsBreak g →
      Wording level (.unary .not e) (w ++ (g ++ t))
  | neg {level e t g} : level ≤ 7 → Wording 7 e t → IsGap g →
      Wording level (.unary .neg e) ('-' :: (g ++ t))
  | test {level op e t u} : op.isTest = true → level ≤ 4 → Wording 5 e t → Words op.testWords u →
      Wording level (.unary op e) (t ++ u)
  | binary {level op l r t u t'} : level ≤ op.level → Wording op.leftLevel l t →
      op.Between u → Wording (op.level + 1) r t' → Wording level (.binary op l r) (t ++ (u ++ t'))

end GraphPatterns
