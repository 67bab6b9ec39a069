/-
Label expressions, fillers, nodes, edges and quantifiers, read at a byte position.
-/
import GraphPatterns.Pattern.Scan.Expr

namespace GraphPatterns.Scan

open GraphPatterns.Parser (joined)

/-! ## Labels -/

/-- A name, the wildcard or an expression between parentheses, after any number of negations. -/
def labelFactorWithin (inner : Scan LabelExpr) : (depth : Nat) → Scan LabelExpr
  | 0 => giveUp
  | depth + 1 => passing do
    if ← tryChar '!' then return .negation (← labelFactorWithin inner depth)
    else if ← tryChar '(' then
      let e ← inner
      expectChar ')'
      return e
    else if ← tryChar '%' then return .wildcard
    else return .name (← identifier)

def labelFactor (inner : Scan LabelExpr) : Scan LabelExpr := do
  labelFactorWithin inner (← source).rounds

def labelConjunction (inner : Scan LabelExpr) : Scan LabelExpr :=
  return joined .conjunction (← separated (tryChar '&') (labelFactor inner))

def labelDisjunction (inner : Scan LabelExpr) : Scan LabelExpr :=
  return joined .disjunction (← separated (tryChar '|') (labelConjunction inner))

def labelsWithin : (depth : Nat) → Scan LabelExpr
  | 0 => giveUp
  | depth + 1 => labelDisjunction (labelsWithin depth)

/-- A label expression after a colon or `IS`, if one comes next. -/
def labels : Scan (Option LabelExpr) := passing do
  if ← tryEither (tryChar ':') (tryKeyword "IS") then
    return some (← labelsWithin (← source).rounds)
  else return none

/-! ## Fillers -/

/-- A property with the value that is asked for. -/
def property : Scan (String × Value) := do
  let key ← identifier
  expectChar ':'
  return (key, ← value)

/-- Properties between braces, if they come next. -/
def properties : Scan (List (String × Value)) := do
  if ← tryChar '\x7b' then
    let items ← itemsUntil '\x7d' property
    expectChar '\x7d'
    return items
  else return []

/-- The name of an element: any identifier but the words that start the parts after it. -/
def elementName : Scan (Option String) := passing do
  skipBlanks
  if (← isNameNext) && !(← isKeywordNext "WHERE") && !(← isKeywordNext "IS") then
    return some (← identifier)
  else return none

def filler : Scan Filler := do
  let name ← elementName
  let label ← labels
  let properties ← properties
  let condition ← condition
  return ⟨name, label, properties, condition⟩

def node : Scan NodePattern := passing do
  expectChar '('
  let f ← filler
  expectChar ')'
  return f

/-! ## Edges -/

/-- Whether an edge pattern comes next. -/
def isEdgeNext : Scan Bool := do
  return (← isTextNext "-") || (← isTextNext "~") || (← isTextNext "<-") || (← isTextNext "<~")

/-- Reads the text that opens an edge pattern with a filler; gives the arrow that it starts. -/
def opening : Scan String := do
  if ← tryText "<-[" then return "<-"
  else if ← tryText "<~[" then return "<~"
  else if ← tryText "~[" then return "~"
  else
    expectText "-["
    return "-"

/-- The first of several texts that comes next. -/
def choice {α : Type} (texts : List (String × α)) : Scan (Option α) :=
  firstOf (texts.map fun (t, a) => (tryText t, a))

/-- An edge pattern with a filler. -/
def fullEdge : Scan EdgePattern := passing do
  let arrow ← opening
  let f ← filler
  expectChar ']'
  match ← choice (Parser.closings arrow) with
  | some direction => return ⟨f, direction, false⟩
  | none => fail (.unmatchedEdge arrow)

def edge : Scan EdgePattern := passing do
  skipBlanks
  if (← isTextNext "<-[") || (← isTextNext "<~[") || (← isTextNext "~[") || (← isTextNext "-[") then
    fullEdge
  else
    match ← choice Parser.arrows with
    | some direction => return ⟨{}, direction, true⟩
    | none => fail .expectedEdge

/-! ## Quantifiers -/

/-- The bounds between the braces of a quantifier. -/
def bounds : Scan Quantifier := do
  skipBlanks
  if ← isDigitNext then
    let n ← integer
    if ← tryChar ',' then
      skipBlanks
      if ← isDigitNext then return .between n (← integer) else return .atLeast n
    else return .exactly n
  else if ← tryChar ',' then return .atMost (← integer)
  else fail .invalidQuantifier

/-- A quantifier, if one comes next. -/
def quantifier : Scan (Option Quantifier) := passing do
  if ← tryChar '*' then return some .zeroOrMore
  else if ← tryChar '+' then return some .oneOrMore
  else if ← tryChar '?' then return some .zeroOrOne
  else if ← tryChar '\x7b' then
    let q ← bounds
    expectChar '\x7d'
    return some q
  else return none

end GraphPatterns.Scan
