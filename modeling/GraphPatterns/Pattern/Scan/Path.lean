/-
Path patterns and graph patterns, read at a byte position. Two parsers go back: the one for a name and an
equals sign, and the one for factors when an opening parenthesis does not start a group.
-/
import GraphPatterns.Pattern.Scan.Element

namespace GraphPatterns.Scan

/-! ## What stands before a path -/

/-- A name and an equals sign, if they come next. Without the sign the cursor goes back to the name. -/
def declaration : Scan (Option String) := passing do
  skipBlanks
  if ← isNameNext then
    let start ← position
    let name ← identifier
    if ← tryChar '=' then return some name
    else
      moveTo start
      return none
  else return none

/-- The word `PATHS` or `PATH`, which adds nothing. -/
def skipPathWord : Scan Unit := passing do
  let _ ← tryEither (tryKeyword "PATHS") (tryKeyword "PATH")

/-- A path mode, if one comes next. -/
def modeWord : Scan (Option PathMode) := passing <|
  firstOf [(tryKeyword "WALK", .walk), (tryKeyword "TRAIL", .trail), (tryKeyword "SIMPLE", .simple),
    (tryKeyword "ACYCLIC", .acyclic)]

/-- A selector, if one comes next. -/
def selectorWords : Scan (Option Selector) := passing do
  if ← tryKeyword "ALL" then
    if ← tryKeyword "SHORTEST" then return some .allShortest else return some .all
  else if ← tryKeyword "ANY" then
    if ← tryKeyword "SHORTEST" then return some .anyShortest
    else
      skipBlanks
      if ← isDigitNext then return some (.anyK (← integer)) else return some .any
  else if ← tryKeyword "SHORTEST" then
    skipBlanks
    if ← isDigitNext then
      let k ← integer
      if ← tryEither (tryKeyword "GROUPS") (tryKeyword "GROUP") then return some (.shortestGroups k)
      else return some (.shortestK k)
    else return some .anyShortest
  else return none

/-- One round of the search for a selector and a mode. What was found is not looked for again. -/
def selectorOrMode (found : Option Selector × Option PathMode) :
    Scan ((Option Selector × Option PathMode) ⊕ (Option Selector × Option PathMode)) := do
  let selector ← if found.1.isNone then selectorWords else pure none
  match selector with
  | some selector =>
    skipPathWord
    return .inl (some selector, found.2)
  | none =>
    let mode ← if found.2.isNone then modeWord else pure none
    match mode with
    | some mode =>
      skipPathWord
      return .inl (found.1, some mode)
    | none => return .inr found

/-- A selector and a mode, in either order. -/
def selectorAndMode : Scan (Option Selector × Option PathMode) :=
  passing <| loop selectorOrMode (none, none)

/-! ## Terms -/

/-- A pattern between parentheses, given a parser for the paths in it. What is between the
parentheses starts with a parenthesis again. -/
def group (inner : Scan PathExpr) : Scan Element := passing do
  expectChar '('
  let name ← declaration
  let mode ← modeWord
  if mode.isSome then skipPathWord
  skipBlanks
  if ← isNext '(' then
    let body ← inner
    let condition ← condition
    expectChar ')'
    return .group name mode body condition
  else fail .expectedPath

def repeated (element : Element) : Scan Factor := passing do return .mk element (← quantifier)

/-- Reads one more factor, or ends the loop. A parenthesis that starts no group is read again as that of a
node. -/
def factor (inner : Scan PathExpr) (factors : Term) : Scan (Term ⊕ Term) := do
  skipBlanks
  if ← isNext '(' then
    let start ← position
    match ← attempt (group inner) with
    | some element => return .inl (factors ++ [← repeated element])
    | none =>
      moveTo start
      return .inl (factors ++ [.mk (.node (← node)) none])
  else if ← isEdgeNext then return .inl (factors ++ [← repeated (.edge (← edge))])
  else return .inr factors

/-- One factor or more. -/
def term (inner : Scan PathExpr) : Scan Term := passing do
  let factors ← loop (factor inner) []
  if factors.isEmpty then fail .expectedPath else return factors

/-- Reads one more term after a bar. The other kind of bar is an error. -/
def unionTerm (inner : Scan PathExpr) (terms : List Term) : Scan (List Term ⊕ List Term) := do
  skipBlanks
  if ← isTextNext "|+|" then fail .mixedAlternatives
  else if ← tryChar '|' then return .inl (terms ++ [← term inner])
  else return .inr terms

/-- Terms joined by one kind of bar, given a parser for the paths between parentheses. -/
def pathExprOver (inner : Scan PathExpr) : Scan PathExpr := passing do
  let first ← term inner
  if ← tryText "|+|" then
    let terms ← loop (fun terms => do
      if ← tryText "|+|" then return .inl (terms ++ [← term inner]) else return .inr terms)
      [first, ← term inner]
    skipBlanks
    if ← isTextNext "|" then fail .mixedAlternatives else return .multiset terms
  else if ← tryChar '|' then return .union (← loop (unionTerm inner) [first, ← term inner])
  else return .term first

def pathExprWithin : (depth : Nat) → Scan PathExpr
  | 0 => giveUp
  | depth + 1 => pathExprOver (pathExprWithin depth)

/-! ## Patterns -/

def path : Scan PathPattern := passing do
  let name ← declaration
  let (selector, mode) ← selectorAndMode
  let e ← pathExprWithin (← source).rounds
  return ⟨name, mode, selector, e⟩

def matchMode : Scan (Option MatchMode) := passing do
  if ← tryKeyword "REPEATABLE" then
    expectKeyword "ELEMENTS"
    return some .repeatable
  else if ← tryKeyword "DIFFERENT" then
    expectKeyword "EDGES"
    return some .differentEdges
  else return none

def graph : Scan GraphPattern := passing do
  let m ← matchMode
  let paths ← separated (tryChar ',') path
  let c ← condition
  return ⟨m, paths, c⟩

/-- A whole text: a graph pattern after an optional `MATCH` and before an optional semicolon. -/
def text : Scan GraphPattern := passing do
  let _ ← tryKeyword "MATCH"
  let g ← graph
  let _ ← tryChar ';'
  skipBlanks
  if (← position) < byteCount (← source).text then fail (.unexpectedInput ((← rest).take 16))
  else return g

end GraphPatterns.Scan
