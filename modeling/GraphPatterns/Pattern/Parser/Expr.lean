/-
Parsers of values and expressions. Operators bind in this order, the loosest first: `OR`, `XOR`,
`AND`, `NOT`, comparison, `+` and `-`, `*` and `/` and `%`, sign. Those that join two operands of one
level associate to the left, and comparisons do not chain.
-/
import GraphPatterns.Pattern.Expr
import GraphPatterns.Pattern.Parser.Token

namespace GraphPatterns.Parser

/-! ## Values -/

def isNumberPart (c : Char) : Bool := c.isDigit || c == '.' || c == 'e' || c == 'E'

/-- The text of a number: a sign, then digits, points and exponent letters in any order. -/
def numberText (s : List Char) : List Char × List Char :=
  match skip s with
  | '-' :: rest =>
    let (digits, rest) := rest.span isNumberPart
    ('-' :: digits, rest)
  | s => s.span isNumberPart

/-- A number. A point or an exponent makes it a double. -/
def number : Parse Value := fun s =>
  let (text, rest) := numberText s
  let value :=
    if text.any fun c => c == '.' || c == 'e' || c == 'E' then
      (Number.readFloat? text).map Value.real
    else (Number.readInt64? text).map Value.integer
  match value with
  | some v => .ok (v, rest)
  | none => fail (.invalidNumber text) rest

/-- A string, if a quote comes next. -/
def string? (s : List Char) : Option (Except Failure (String × List Char)) :=
  match skip s with
  | c :: rest =>
    if c = '"' ∨ c = '\'' then
      some ((stringBody c rest).map fun (cs, rest) => (String.ofList cs, rest))
    else none
  | [] => none

/-- One of the literals `true`, `false` and `null`. -/
def literal? (s : List Char) : Option (Value × List Char) :=
  match keyword? "true" s with
  | some s => some (.boolean true, s)
  | none =>
    match keyword? "false" s with
    | some s => some (.boolean false, s)
    | none => (keyword? "null" s).map fun s => (.null, s)

/-- A value, with lists nested to a bounded depth. -/
def valueWithin : (depth : Nat) → Parse Value
  | 0, s => fail .invalidValue (skip s)
  | depth + 1, s =>
    match string? s with
    | some result => result.map fun (t, s) => (.text t, s)
    | none =>
      if isAtDigit s || isAt '-' s then number s
      else
        match char? '[' s with
        | some s => do
          let (items, s) ← itemsUntil ']' (valueWithin depth) (s.length + 1) s
          let s ← expectChar ']' s
          return (.list items, s)
        | none =>
          match literal? s with
          | some result => .ok result
          | none => fail .invalidValue (skip s)

/-- A value. A text of n characters opens at most n brackets. -/
def value : Parse Value := fun s => valueWithin (s.length + 1) s

/-! ## Expressions -/

/-- An operator that comes next. -/
abbrev Operator := List Char → Option (BinaryOp × List Char)

def symbol (t : String) (op : BinaryOp) : Operator := fun s => (text? t s).map fun s => (op, s)

def word (t : String) (op : BinaryOp) : Operator := fun s => (keyword? t s).map fun s => (op, s)

/-- The first of several operators that comes next. -/
def oneOf : List Operator → Operator
  | [], _ => none
  | op :: rest, s => (op s).or (oneOf rest s)

/-- Joins further operands to the left one. -/
def chainFrom (operator : Operator) (operand : Parse Expr) : (bound : Nat) → Expr → Parse Expr
  | 0, left, s => .ok (left, s)
  | bound + 1, left, s =>
    match operator s with
    | none => .ok (left, s)
    | some (op, s) => do
      let (right, s) ← operand s
      chainFrom operator operand bound (.binary op left right) s

/-- Operands of one level, joined to the left. -/
def chain (operator : Operator) (operand : Parse Expr) : Parse Expr := fun s => do
  let (left, s) ← operand s
  chainFrom operator operand s.length left s

/-- An operand after any number of operators of the given kind. -/
def prefixed (operator : List Char → Option (List Char)) (op : UnaryOp) (operand : Parse Expr) :
    (bound : Nat) → Parse Expr
  | 0, s => operand s
  | bound + 1, s =>
    match operator s with
    | none => operand s
    | some s => do
      let (e, s) ← prefixed operator op operand bound s
      return (.unary op e, s)

/-- A variable or a property. -/
def reference : Parse Expr := fun s => do
  let (name, s) ← identifier s
  match char? '.' s with
  | none => return (.var name, s)
  | some s =>
    let (key, s) ← identifier s
    return (.property name key, s)

/-- An operand without operators, given a parser for what stands between brackets. -/
def primary (inner : Parse Expr) : Parse Expr := fun s =>
  match char? '(' s with
  | some s => do
    let (e, s) ← inner s
    let s ← expectChar ')' s
    return (e, s)
  | none =>
    match char? '[' s with
    | some s => do
      let (items, s) ← itemsUntil ']' inner (s.length + 1) s
      let s ← expectChar ']' s
      return (.list items, s)
    | none =>
      match string? s with
      | some result => result.map fun (t, s) => (.literal (.text t), s)
      | none =>
        if isAtDigit s then (number s).map fun (v, s) => (.literal v, s)
        else
          match literal? s with
          | some (v, s) => .ok (.literal v, s)
          | none => reference s

def signed (inner : Parse Expr) : Parse Expr := fun s =>
  prefixed (char? '-') .neg (primary inner) s.length s

def product (inner : Parse Expr) : Parse Expr :=
  chain (oneOf [symbol "*" .mul, symbol "/" .div, symbol "%" .mod]) (signed inner)

def sum (inner : Parse Expr) : Parse Expr :=
  chain (oneOf [symbol "+" .add, symbol "-" .sub]) (product inner)

/-- The comparison that comes next. Longer symbols go before their beginnings. -/
def comparator (s : List Char) : Except Failure (Option (BinaryOp × List Char)) :=
  let symbols := oneOf [symbol "<=" .le, symbol ">=" .ge, symbol "<>" .ne, symbol "!=" .ne,
    symbol "<" .lt, symbol ">" .gt, symbol "=" .eq, word "CONTAINS" .contains]
  match symbols s with
  | some result => .ok (some result)
  | none =>
    match keyword? "STARTS" s with
    | some s => (expectKeyword "WITH" s).map fun s => some (.startsWith, s)
    | none =>
      match keyword? "ENDS" s with
      | some s => (expectKeyword "WITH" s).map fun s => some (.endsWith, s)
      | none => .ok (word "IN" .isIn s)

/-- A sum, tested for null or compared with another sum. -/
def comparison (inner : Parse Expr) : Parse Expr := fun s => do
  let (left, s) ← sum inner s
  match keyword? "IS" s with
  | some s =>
    let (op, s) :=
      match keyword? "NOT" s with
      | some s => (UnaryOp.isNotNull, s)
      | none => (UnaryOp.isNull, s)
    let s ← expectKeyword "NULL" s
    return (.unary op left, s)
  | none =>
    match ← comparator s with
    | none => return (left, s)
    | some (op, s) =>
      let (right, s) ← sum inner s
      return (.binary op left right, s)

def negation (inner : Parse Expr) : Parse Expr := fun s =>
  prefixed (keyword? "NOT") .not (comparison inner) s.length s

/-- An expression, given a parser for what stands between brackets. -/
def exprOver (inner : Parse Expr) : Parse Expr :=
  chain (word "OR" .or) (chain (word "XOR" .xor) (chain (word "AND" .and) (negation inner)))

/-- An expression, with brackets nested to a bounded depth. -/
def exprWithin : (depth : Nat) → Parse Expr
  | 0, s => fail .expectedIdentifier (skip s)
  | depth + 1, s => exprOver (exprWithin depth) s

/-- An expression. A text of n characters opens at most n brackets. -/
def expr : Parse Expr := fun s => exprWithin (s.length + 1) s

/-- A WHERE clause, if one comes next. -/
def condition : Parse (Option Expr) := fun s =>
  match keyword? "WHERE" s with
  | some s => (expr s).map fun (e, s) => (some e, s)
  | none => .ok (none, s)

end GraphPatterns.Parser
