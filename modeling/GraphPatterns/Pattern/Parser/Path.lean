/-
Parsers of path patterns and graph patterns. An opening parenthesis starts a pattern between
parentheses if one can be read there, and a node otherwise; what goes wrong inside the first is then
forgotten.
-/
import GraphPatterns.Pattern.Parser.Element

namespace GraphPatterns.Parser

/-! ## What stands before a path -/

/-- A name and an equals sign, if they come next. -/
def declaration? (s : List Char) : Option (String × List Char) :=
  if isAtName s then
    match identifier s with
    | .ok (name, s) => (char? '=' s).map fun s => (name, s)
    | .error _ => none
  else none

def declaration (s : List Char) : Option String × List Char :=
  match declaration? s with
  | some (name, s) => (some name, s)
  | none => (none, s)

/-- The word `PATHS` or `PATH`, which adds nothing. -/
def skipPathWord (s : List Char) : List Char :=
  ((keyword? "PATHS" s).or (keyword? "PATH" s)).getD s

/-- The first of several keywords that comes next. -/
def keywordChoice? {α : Type} : List (String × α) → List Char → Option (α × List Char)
  | [], _ => none
  | (t, a) :: rest, s =>
    match keyword? t s with
    | some s => some (a, s)
    | none => keywordChoice? rest s

/-- A path mode, if one comes next. -/
def mode (s : List Char) : Option PathMode × List Char :=
  let modes := [("WALK", PathMode.walk), ("TRAIL", .trail), ("SIMPLE", .simple),
    ("ACYCLIC", .acyclic)]
  match keywordChoice? modes s with
  | some (m, s) => (some m, skipPathWord s)
  | none => (none, s)

/-- A selector, if one comes next. -/
def selector : Parse (Option Selector) := fun s =>
  let found (r : Selector × List Char) : Option Selector × List Char :=
    (some r.1, skipPathWord r.2)
  match keyword? "ALL" s with
  | some s =>
    match keyword? "SHORTEST" s with
    | some s => .ok (found (.allShortest, s))
    | none => .ok (found (.all, s))
  | none =>
    match keyword? "ANY" s with
    | some s =>
      match keyword? "SHORTEST" s with
      | some s => .ok (found (.anyShortest, s))
      | none =>
        if isAtDigit s then (integer s).map fun (k, s) => found (.anyK k, s)
        else .ok (found (.any, s))
    | none =>
      match keyword? "SHORTEST" s with
      | some s =>
        if isAtDigit s then
          (integer s).map fun (k, s) =>
            match (keyword? "GROUPS" s).or (keyword? "GROUP" s) with
            | some s => found (.shortestGroups k, s)
            | none => found (.shortestK k, s)
        else .ok (found (.anyShortest, s))
      | none => .ok (none, s)

/-- A selector and a mode, in either order. -/
def selectorAndMode : Parse (Option Selector × Option PathMode) := fun s => do
  match ← selector s with
  | (some chosen, s) =>
    let (m, s) := mode s
    return ((some chosen, m), s)
  | (none, s) =>
    match mode s with
    | (some m, s) =>
      let (chosen, s) ← selector s
      return ((chosen, some m), s)
    | (none, s) => return ((none, none), s)

/-! ## Terms -/

/-- A pattern between parentheses, given a parser for the paths in it. What is between the
parentheses starts with a parenthesis again. -/
def group (inner : Parse PathExpr) : Parse Element := fun s => do
  let s ← expectChar '(' s
  let (name, s) := declaration s
  let (m, s) := mode s
  if !isAt '(' s then fail .expectedPath (skip s)
  else
    let (body, s) ← inner s
    let (c, s) ← condition s
    let s ← expectChar ')' s
    return (.group name m body c, s)

def repeated (element : Element) : Parse Factor := fun s =>
  (quantifier s).map fun (q, s) => (.mk element q, s)

/-- A factor, if one comes next. Only edges and patterns between parentheses are repeated. -/
def factor? (inner : Parse PathExpr) (s : List Char) :
    Option (Except Failure (Factor × List Char)) :=
  if isAt '(' s then
    match group inner s with
    | .ok (element, s) => some (repeated element s)
    | .error _ => some ((node s).map fun (n, s) => (.mk (.node n) none, s))
  else
    (edge? s).map fun result => do
      let (e, s) ← result
      repeated (.edge e) s

/-- The factors that come next. -/
def factors (inner : Parse PathExpr) : (bound : Nat) → Parse Term
  | 0, s => .ok ([], s)
  | bound + 1, s =>
    match factor? inner s with
    | none => .ok ([], s)
    | some result => do
      let (f, s) ← result
      let (fs, s) ← factors inner bound s
      return (f :: fs, s)

/-- One factor or more. -/
def term (inner : Parse PathExpr) : Parse Term := fun s => do
  let (fs, s) ← factors inner (s.length + 1) s
  if fs.isEmpty then fail .expectedPath (skip s) else return (fs, s)

/-- A bar that does not start the other kind of bar. -/
def unionBar (s : List Char) : Option (List Char) :=
  if (text? "|+|" s).isSome then none else char? '|' s

/-- Terms joined by one kind of bar, given a parser for the paths between parentheses. -/
def pathExprOver (inner : Parse PathExpr) : Parse PathExpr := fun s => do
  let (first, s) ← term inner s
  match text? "|+|" s with
  | some _ =>
    let (rest, s) ← more (text? "|+|") (term inner) s.length s
    if isAt '|' s then fail .mixedAlternatives (skip s) else return (.multiset (first :: rest), s)
  | none =>
    match char? '|' s with
    | some _ =>
      let (rest, s) ← more unionBar (term inner) s.length s
      if (text? "|+|" s).isSome then fail .mixedAlternatives (skip s)
      else return (.union (first :: rest), s)
    | none => return (.term first, s)

/-- A choice between terms, with parentheses nested to a bounded depth. -/
def pathExprWithin : (depth : Nat) → Parse PathExpr
  | 0, s => fail .expectedPath (skip s)
  | depth + 1, s => pathExprOver (pathExprWithin depth) s

/-! ## Patterns -/

def path : Parse PathPattern := fun s => do
  let (name, s) := declaration s
  let ((chosen, m), s) ← selectorAndMode s
  let (e, s) ← pathExprWithin (s.length + 1) s
  return (⟨name, m, chosen, e⟩, s)

def matchMode : Parse (Option MatchMode) := fun s =>
  match keyword? "REPEATABLE" s with
  | some s => (expectKeyword "ELEMENTS" s).map fun s => (some .repeatable, s)
  | none =>
    match keyword? "DIFFERENT" s with
    | some s => (expectKeyword "EDGES" s).map fun s => (some .differentEdges, s)
    | none => .ok (none, s)

def graph : Parse GraphPattern := fun s => do
  let (m, s) ← matchMode s
  let (paths, s) ← separated (char? ',') path s
  let (c, s) ← condition s
  return (⟨m, paths, c⟩, s)

/-- A whole text: a graph pattern after an optional `MATCH` and before an optional semicolon. -/
def text (s : List Char) : Except Failure GraphPattern := do
  let (g, s) ← graph ((keyword? "MATCH" s).getD s)
  let s := skip ((char? ';' s).getD s)
  if s.isEmpty then return g else fail (.unexpectedInput (s.take 16)) s

end GraphPatterns.Parser

namespace GraphPatterns

/-- Why a text cannot be read as a pattern. -/
inductive ParseError where
  /-- A problem after so many bytes of the text. -/
  | at (problem : Parser.Problem) (position : Nat)
  /-- A single path pattern was expected. -/
  | notOnePath
deriving DecidableEq

def ParseError.message : ParseError → String
  | .at problem position => problem.message ++ " at position " ++ toString position
  | .notOnePath => "Expected a single path pattern"

/-- The bytes that a text takes. -/
def byteCount (s : List Char) : Nat := s.foldl (fun n c => n + c.utf8Size) 0

/-- Reads a graph pattern. -/
def GraphPattern.parse (input : String) : Except ParseError GraphPattern :=
  let s := input.toList
  match Parser.text s with
  | .ok g => .ok g
  | .error failure => .error (.at failure.problem (byteCount s - byteCount failure.rest))

/-- Reads a text that is a single path pattern, without match mode and condition. -/
def PathPattern.parse (input : String) : Except ParseError PathPattern := do
  let g ← GraphPattern.parse input
  match g with
  | ⟨none, [p], none⟩ => return p
  | _ => throw .notOnePath

end GraphPatterns
