/-
The expressions of WHERE clauses, the names that occur in them, and their text.
-/
import GraphPatterns.Value.Basic

namespace GraphPatterns

inductive BinaryOp where
  | eq
  | ne
  | lt
  | le
  | gt
  | ge
  | and
  | or
  | xor
  | add
  | sub
  | mul
  | div
  | mod
  | contains
  | startsWith
  | endsWith
  | isIn
deriving DecidableEq, Inhabited

inductive UnaryOp where
  | not
  | neg
  | isNull
  | isNotNull
deriving DecidableEq, Inhabited

namespace BinaryOp

/-- All binary operators. -/
def all : List BinaryOp :=
  [.eq, .ne, .lt, .le, .gt, .ge, .and, .or, .xor, .add, .sub, .mul, .div, .mod, .contains,
    .startsWith, .endsWith, .isIn]

def render : BinaryOp → String
  | .eq => "="
  | .ne => "<>"
  | .lt => "<"
  | .le => "<="
  | .gt => ">"
  | .ge => ">="
  | .and => "AND"
  | .or => "OR"
  | .xor => "XOR"
  | .add => "+"
  | .sub => "-"
  | .mul => "*"
  | .div => "/"
  | .mod => "%"
  | .contains => "CONTAINS"
  | .startsWith => "STARTS WITH"
  | .endsWith => "ENDS WITH"
  | .isIn => "IN"

end BinaryOp

/-- All unary operators. -/
def UnaryOp.all : List UnaryOp := [.not, .neg, .isNull, .isNotNull]

def UnaryOp.render : UnaryOp → String
  | .not => "NOT"
  | .neg => "-"
  | .isNull => "IS NULL"
  | .isNotNull => "IS NOT NULL"

/-- Whether the operator stands after its operand. -/
def UnaryOp.isTest : UnaryOp → Bool
  | .isNull | .isNotNull => true
  | _ => false

/-- An expression. -/
inductive Expr where
  | literal (v : Value)
  | var (name : String)
  /-- The property of the element that a variable is bound to. -/
  | property (name key : String)
  | binary (op : BinaryOp) (l r : Expr)
  | unary (op : UnaryOp) (e : Expr)
  | list (items : List Expr)

instance : Inhabited Expr := ⟨.literal .null⟩

namespace Expr

mutual

/-- The variables that occur, from left to right and with repeats. -/
def vars : Expr → List String
  | .literal _ => []
  | .var name => [name]
  | .property name _ => [name]
  | .binary _ l r => vars l ++ vars r
  | .unary _ e => vars e
  | .list items => varsOfList items

def varsOfList : List Expr → List String
  | [] => []
  | e :: rest => vars e ++ varsOfList rest

end

mutual

/-- The property keys that occur, from left to right and with repeats. -/
def keys : Expr → List String
  | .literal _ => []
  | .var _ => []
  | .property _ key => [key]
  | .binary _ l r => keys l ++ keys r
  | .unary _ e => keys e
  | .list items => keysOfList items

def keysOfList : List Expr → List String
  | [] => []
  | e :: rest => keys e ++ keysOfList rest

end

mutual

/-- The text of an expression. Binary operators and tests stand between parentheses. -/
def render : Expr → String
  | .literal v => v.render
  | .var name => name
  | .property name key => name ++ "." ++ key
  | .binary op l r => "(" ++ render l ++ " " ++ op.render ++ " " ++ render r ++ ")"
  | .unary op e =>
    if op.isTest then "(" ++ render e ++ " " ++ op.render ++ ")"
    else op.render ++ " " ++ render e
  | .list items => "[" ++ ", ".intercalate (renderList items) ++ "]"

def renderList : List Expr → List String
  | [] => []
  | e :: rest => render e :: renderList rest

end

end Expr

end GraphPatterns
