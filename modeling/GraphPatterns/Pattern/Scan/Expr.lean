/-
Values and expressions, read at a byte position.
-/
import GraphPatterns.Pattern.Scan.Token

namespace GraphPatterns.Scan

/-! ## Values -/

/-- A number. A point or an exponent makes it a double. -/
def number : Scan Value := passing do
  let text ← numberText
  let value :=
    if text.any fun c => c == '.' || c == 'e' || c == 'E' then
      (Number.readFloat? text).map Value.real
    else (Number.readInt64? text).map Value.integer
  match value with
  | some v => return v
  | none => fail (.invalidNumber text)

/-- Whether a string comes next. -/
def isQuoteNext : Scan Bool := return (← isNext '"') || (← isNext '\'')

/-- The words for values. -/
def words : List (Scan Bool × Value) :=
  [(tryKeyword "true", .boolean true), (tryKeyword "false", .boolean false),
    (tryKeyword "null", .null)]

def valueWithin : (depth : Nat) → Scan Value
  | 0 => giveUp
  | depth + 1 => passing do
    skipBlanks
    if ← isQuoteNext then return .text (← string)
    else if (← isDigitNext) || (← isNext '-') then number
    else if ← tryChar '[' then
      let items ← itemsUntil ']' (valueWithin depth)
      expectChar ']'
      return .list items
    else
      match ← firstOf words with
      | some v => return v
      | none => fail .invalidValue

def value : Scan Value := do valueWithin (← source).rounds

/-! ## Expressions -/

/-- Operands of one level, joined to the left. -/
def chain (operator : Scan (Option BinaryOp)) (operand : Scan Expr) : Scan Expr := passing do
  let left ← operand
  loop (fun left => do
    match ← operator with
    | some op => return .inl (.binary op left (← operand))
    | none => return .inr left) left

/-- An operand after any number of operators of one kind. -/
def prefixedWithin (operator : Scan Bool) (op : UnaryOp) (operand : Scan Expr) : (depth : Nat) → Scan Expr
  | 0 => giveUp
  | depth + 1 => passing do
    if ← operator then return .unary op (← prefixedWithin operator op operand depth) else operand

def prefixed (operator : Scan Bool) (op : UnaryOp) (operand : Scan Expr) : Scan Expr := do
  prefixedWithin operator op operand (← source).rounds

/-- A variable or a property. -/
def reference : Scan Expr := do
  let name ← identifier
  if ← tryChar '.' then return .property name (← identifier) else return .var name

/-- An operand without operators, given a parser for what stands between brackets. -/
def primary (inner : Scan Expr) : Scan Expr := passing do
  skipBlanks
  if ← tryChar '(' then
    let e ← inner
    expectChar ')'
    return e
  else if ← tryChar '[' then
    let items ← itemsUntil ']' inner
    expectChar ']'
    return .list items
  else if ← isQuoteNext then return .literal (.text (← string))
  else if ← isDigitNext then return .literal (← number)
  else
    match ← firstOf words with
    | some v => return .literal v
    | none => reference

def signed (inner : Scan Expr) : Scan Expr := prefixed (tryChar '-') .neg (primary inner)

def product (inner : Scan Expr) : Scan Expr :=
  chain (firstOf [(tryChar '*', .mul), (tryChar '/', .div), (tryChar '%', .mod)]) (signed inner)

def sum (inner : Scan Expr) : Scan Expr :=
  chain (firstOf [(tryChar '+', .add), (tryChar '-', .sub)]) (product inner)

/-- The comparison that comes next. Longer symbols go before their beginnings. -/
def comparator : Scan (Option BinaryOp) := do
  match ← firstOf [(tryText "<=", .le), (tryText ">=", .ge), (tryText "<>", .ne), (tryText "!=", .ne),
    (tryChar '<', .lt), (tryChar '>', .gt), (tryChar '=', .eq), (tryKeyword "CONTAINS", .contains)] with
  | some op => return some op
  | none =>
    if ← tryKeyword "STARTS" then
      expectKeyword "WITH"
      return some .startsWith
    else if ← tryKeyword "ENDS" then
      expectKeyword "WITH"
      return some .endsWith
    else if ← tryKeyword "IN" then return some .isIn
    else return none

/-- A sum, tested for null or compared with another sum. -/
def comparison (inner : Scan Expr) : Scan Expr := passing do
  let left ← sum inner
  if ← tryKeyword "IS" then
    let op := if ← tryKeyword "NOT" then UnaryOp.isNotNull else UnaryOp.isNull
    expectKeyword "NULL"
    return .unary op left
  else
    match ← comparator with
    | some op => return .binary op left (← sum inner)
    | none => return left

def negation (inner : Scan Expr) : Scan Expr := prefixed (tryKeyword "NOT") .not (comparison inner)

/-- A keyword that stands for an operator. -/
def word (keyword : String) (op : BinaryOp) : Scan (Option BinaryOp) := firstOf [(tryKeyword keyword, op)]

/-- An expression, given a parser for what stands between brackets. -/
def exprOver (inner : Scan Expr) : Scan Expr :=
  chain (word "OR" .or) (chain (word "XOR" .xor) (chain (word "AND" .and) (negation inner)))

def exprWithin : (depth : Nat) → Scan Expr
  | 0 => giveUp
  | depth + 1 => exprOver (exprWithin depth)

def expr : Scan Expr := do exprWithin (← source).rounds

/-- A WHERE clause, if one comes next. -/
def condition : Scan (Option Expr) := do
  if ← tryKeyword "WHERE" then return some (← expr) else return none

end GraphPatterns.Scan
