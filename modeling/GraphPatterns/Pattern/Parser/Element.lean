/-
Parsers of label expressions, fillers, nodes, edges and quantifiers.
-/
import GraphPatterns.Pattern.Basic
import GraphPatterns.Pattern.Parser.Expr

namespace GraphPatterns.Parser

/-! ## Labels -/

/-- One expression as it is, several joined. -/
def joined (join : List LabelExpr → LabelExpr) : List LabelExpr → LabelExpr
  | [e] => e
  | es => join es

/-- A name, the wildcard or an expression between parentheses, after any number of negations. -/
def labelFactor (inner : Parse LabelExpr) : (bound : Nat) → Parse LabelExpr
  | 0, s => fail .expectedIdentifier (skip s)
  | bound + 1, s =>
    match char? '!' s with
    | some s => do
      let (e, s) ← labelFactor inner bound s
      return (.negation e, s)
    | none =>
      match char? '(' s with
      | some s => do
        let (e, s) ← inner s
        let s ← expectChar ')' s
        return (e, s)
      | none =>
        match char? '%' s with
        | some s => .ok (.wildcard, s)
        | none => (identifier s).map fun (name, s) => (.name name, s)

def labelConjunction (inner : Parse LabelExpr) : Parse LabelExpr := fun s =>
  (separated (char? '&') (fun s => labelFactor inner (s.length + 1) s) s).map fun (es, s) =>
    (joined .conjunction es, s)

def labelDisjunction (inner : Parse LabelExpr) : Parse LabelExpr := fun s =>
  (separated (char? '|') (labelConjunction inner) s).map fun (es, s) =>
    (joined .disjunction es, s)

/-- A label expression, with parentheses nested to a bounded depth. -/
def labelsWithin : (depth : Nat) → Parse LabelExpr
  | 0, s => fail .expectedIdentifier (skip s)
  | depth + 1, s => labelDisjunction (labelsWithin depth) s

/-- A label expression after a colon or `IS`, if one comes next. -/
def labels : Parse (Option LabelExpr) := fun s =>
  match (char? ':' s).or (keyword? "IS" s) with
  | some s => (labelsWithin (s.length + 1) s).map fun (e, s) => (some e, s)
  | none => .ok (none, s)

/-! ## Fillers -/

/-- A property with the value that is asked for. -/
def property : Parse (String × Value) := fun s => do
  let (key, s) ← identifier s
  let s ← expectChar ':' s
  let (v, s) ← value s
  return ((key, v), s)

/-- Properties between braces, if they come next. -/
def properties : Parse (List (String × Value)) := fun s =>
  match char? '\x7b' s with
  | some s => do
    let (items, s) ← itemsUntil '\x7d' property (s.length + 1) s
    let s ← expectChar '\x7d' s
    return (items, s)
  | none => .ok ([], s)

/-- The name of an element: any identifier but the words that start the parts after it. -/
def elementName : Parse (Option String) := fun s =>
  if isAtName s && (keyword? "WHERE" s).isNone && (keyword? "IS" s).isNone then
    (identifier s).map fun (name, s) => (some name, s)
  else .ok (none, s)

def filler : Parse Filler := fun s => do
  let (name, s) ← elementName s
  let (label, s) ← labels s
  let (properties, s) ← properties s
  let (condition, s) ← condition s
  return (⟨name, label, properties, condition⟩, s)

def node : Parse NodePattern := fun s => do
  let s ← expectChar '(' s
  let (f, s) ← filler s
  let s ← expectChar ')' s
  return (f, s)

/-! ## Edges -/

/-- The texts that open an edge pattern with a filler, each with the arrow it starts. -/
def openings : List (String × String) := [("<-[", "<-"), ("<~[", "<~"), ("~[", "~"), ("-[", "-")]

/-- The ways in which an opened edge pattern may be closed. -/
def closings : String → List (String × Direction)
  | "<-" => [("->", .leftOrRight), ("-", .left)]
  | "<~" => [("~", .leftOrUndirected)]
  | "~" => [("~>", .undirectedOrRight), ("~", .undirected)]
  | "-" => [("->", .right), ("-", .any)]
  | _ => []

/-- The bare arrows; longer ones go before their beginnings. -/
def arrows : List (String × Direction) :=
  [("<->", .leftOrRight), ("<-", .left), ("<~", .leftOrUndirected), ("->", .right),
    ("~>", .undirectedOrRight), ("~", .undirected), ("-", .any)]

/-- The first of several texts that comes next. -/
def choice? {α : Type} : List (String × α) → List Char → Option (α × List Char)
  | [], _ => none
  | (t, a) :: rest, s =>
    match text? t s with
    | some s => some (a, s)
    | none => choice? rest s

/-- An edge pattern, if one comes next. -/
def edge? (s : List Char) : Option (Except Failure (EdgePattern × List Char)) :=
  match choice? openings s with
  | some (opening, s) => some do
    let (f, s) ← filler s
    let s ← expectChar ']' s
    match choice? (closings opening) s with
    | some (direction, s) => return (⟨f, direction, false⟩, s)
    | none => fail (.unmatchedEdge opening) (skip s)
  | none => (choice? arrows s).map fun (direction, s) => .ok (⟨{}, direction, true⟩, s)

/-! ## Quantifiers -/

/-- The bounds between the braces of a quantifier. -/
def bounds : Parse Quantifier := fun s =>
  if isAtDigit s then do
    let (n, s) ← integer s
    match char? ',' s with
    | none => return (.exactly n, s)
    | some s =>
      if isAtDigit s then
        let (m, s) ← integer s
        return (.between n m, s)
      else return (.atLeast n, s)
  else
    match char? ',' s with
    | some s => (integer s).map fun (m, s) => (.atMost m, s)
    | none => fail .invalidQuantifier (skip s)

/-- A quantifier, if one comes next. -/
def quantifier : Parse (Option Quantifier) := fun s =>
  match char? '*' s with
  | some s => .ok (some .zeroOrMore, s)
  | none =>
    match char? '+' s with
    | some s => .ok (some .oneOrMore, s)
    | none =>
      match char? '?' s with
      | some s => .ok (some .zeroOrOne, s)
      | none =>
        match char? '\x7b' s with
        | some s => do
          let (q, s) ← bounds s
          let s ← expectChar '\x7d' s
          return (some q, s)
        | none => .ok (none, s)

end GraphPatterns.Parser
