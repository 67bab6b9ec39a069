/-
Label expressions: names, the wildcard, negation, conjunction and disjunction. A conjunction stops at
the first part that fails and a disjunction at the first that holds; `asked` lists the names that are
looked at on the way.
-/
import GraphPatterns.Graph.Element

namespace GraphPatterns

/-- A condition on the labels of an element. -/
inductive LabelExpr where
  | name (label : String)
  | wildcard
  | negation (e : LabelExpr)
  | conjunction (es : List LabelExpr)
  | disjunction (es : List LabelExpr)

instance : Inhabited LabelExpr := ⟨.wildcard⟩

namespace LabelExpr

mutual

/-- Whether an element with the given labels satisfies the expression. -/
def holds (has : String → Bool) : LabelExpr → Bool
  | .name label => has label
  | .wildcard => true
  | .negation e => !holds has e
  | .conjunction es => allHold has es
  | .disjunction es => anyHolds has es

def allHold (has : String → Bool) : List LabelExpr → Bool
  | [] => true
  | e :: rest => holds has e && allHold has rest

def anyHolds (has : String → Bool) : List LabelExpr → Bool
  | [] => false
  | e :: rest => holds has e || anyHolds has rest

end

mutual

/-- The names that are looked at when the expression is decided, in order. -/
def asked (has : String → Bool) : LabelExpr → List String
  | .name label => [label]
  | .wildcard => []
  | .negation e => asked has e
  | .conjunction es => askedOfAll has es
  | .disjunction es => askedOfAny has es

def askedOfAll (has : String → Bool) : List LabelExpr → List String
  | [] => []
  | e :: rest => asked has e ++ (if holds has e then askedOfAll has rest else [])

def askedOfAny (has : String → Bool) : List LabelExpr → List String
  | [] => []
  | e :: rest => asked has e ++ (if holds has e then [] else askedOfAny has rest)

end

/-- Whether a list of labels satisfies the expression. -/
def accepts (e : LabelExpr) (labels : Labels) : Bool := e.holds labels.contains

mutual

/-- The names in the expression, from left to right. -/
def names : LabelExpr → List String
  | .name label => [label]
  | .wildcard => []
  | .negation e => names e
  | .conjunction es => namesOfList es
  | .disjunction es => namesOfList es

def namesOfList : List LabelExpr → List String
  | [] => []
  | e :: rest => names e ++ namesOfList rest

end

def isDisjunction : LabelExpr → Bool
  | .disjunction _ => true
  | _ => false

/-- Whether the expression joins others. -/
def isJoined : LabelExpr → Bool
  | .conjunction _ | .disjunction _ => true
  | _ => false

def parenthesized (s : String) : String := "(" ++ s ++ ")"

mutual

/-- The expression as patterns write it. Negation binds tightest, then `&`, then `|`. -/
def render : LabelExpr → String
  | .name label => label
  | .wildcard => "%"
  | .negation e => "!" ++ (if e.isJoined then parenthesized (render e) else render e)
  | .conjunction es => "&".intercalate (renderParts es)
  | .disjunction es => "|".intercalate (renderAll es)

/-- The parts of a conjunction, each disjunction between parentheses. -/
def renderParts : List LabelExpr → List String
  | [] => []
  | e :: rest =>
    (if e.isDisjunction then parenthesized (render e) else render e) :: renderParts rest

def renderAll : List LabelExpr → List String
  | [] => []
  | e :: rest => render e :: renderAll rest

end

end LabelExpr

end GraphPatterns
