/-
Programs of the search machine. A path pattern becomes a flat list of instructions, in which the code
of a part does not depend on where it stands: jumps are given by their distance. A quantifier is a
loop, so what is repeated stands in the code once, however often it is to be repeated.
-/
import GraphPatterns.Assoc
import GraphPatterns.Number.Decimal
import GraphPatterns.Pattern.Kind

namespace GraphPatterns

/-- An instruction. -/
inductive Inst where
  /-- Test the current vertex. Under a quantifier the variable is grouped. -/
  | node (pattern : NodePattern) (grouped : Bool)
  /-- Go on over an edge. -/
  | edge (pattern : EdgePattern) (grouped : Bool)
  /-- Go on with the next instruction; the instruction so far ahead is an alternative. -/
  | split (ahead : Nat)
  /-- Go on so far ahead. -/
  | jump (ahead : Nat)
  /-- Start to count repetitions. -/
  | openLoop
  /-- Repeat what follows or leave, to the instruction so far ahead. -/
  | loop (lower : Nat) (upper : Option Nat) (ahead : Nat)
  /-- End one repetition and go so far back. -/
  | again (lower : Nat) (back : Nat)
  /-- Stop counting. -/
  | closeLoop
  /-- Start a pattern between parentheses. -/
  | openGroup (mode : PathMode)
  /-- End a pattern between parentheses. -/
  | closeGroup (name : Option String) (condition : Option Expr) (grouped : Bool)
  /-- The whole pattern is matched. -/
  | accept

mutual

/-- The code of a choice between terms. -/
def PathExpr.code (grouped : Bool) : PathExpr → List Inst
  | .term factors => termCode grouped factors
  | .union terms => choiceCode grouped terms
  | .multiset terms => choiceCode grouped terms

/-- The terms one after the other; each but the last jumps over those after it. -/
def choiceCode (grouped : Bool) : List (List Factor) → List Inst
  | [] => []
  | t :: rest =>
    let first := termCode grouped t
    let others := choiceCode grouped rest
    if rest.isEmpty then first
    else .split (first.length + 2) :: first ++ .jump (others.length + 1) :: others

def termCode (grouped : Bool) : List Factor → List Inst
  | [] => []
  | f :: rest => f.code grouped ++ termCode grouped rest

def Factor.code (grouped : Bool) : Factor → List Inst
  | .mk e none => e.code grouped
  | .mk e (some q) =>
    let body := e.code true
    .openLoop :: .loop q.lower q.upper (body.length + 2) :: body ++
      [.again q.lower (body.length + 1), .closeLoop]

def Element.code (grouped : Bool) : Element → List Inst
  | .node n => [.node n grouped]
  | .edge e => [.edge e grouped]
  | .group name mode body condition =>
    .openGroup (mode.getD .walk) :: body.code grouped ++ [.closeGroup name condition grouped]

end

/-! ## Lengths -/

/-- Addition and multiplication that stay within 64 bits. -/
def saturate (n : Nat) : Nat := min Number.maxWord n

/-- The least and the greatest number of edges of something repeated. -/
def Quantifier.lengthBounds (q : Quantifier) (body : Nat × Option Nat) : Nat × Option Nat :=
  (saturate (body.1 * q.lower),
    match body.2, q.upper with
    | some 0, _ => some 0
    | _, some 0 => some 0
    | some m, some u => some (saturate (m * u))
    | _, _ => none)

/-- The sum of two upper bounds. -/
def addUpper : Option Nat → Option Nat → Option Nat
  | some a, some b => some (saturate (a + b))
  | _, _ => none

/-- The larger of two upper bounds. -/
def maxUpper : Option Nat → Option Nat → Option Nat
  | some a, some b => some (max a b)
  | _, _ => none

/-- The least of several lower bounds; bounds that 64 bits cannot hold count for nothing. -/
def leastLower (bounds : Nat × Option Nat) : Nat × Option Nat :=
  (if bounds.1 = Number.maxWord then 0 else bounds.1, bounds.2)

mutual

/-- The least and the greatest number of edges of a match; `none` where there is no greatest. -/
def PathExpr.lengthBounds : PathExpr → Nat × Option Nat
  | .term factors => leastLower (termLengthBounds factors)
  | .union terms => leastLower (choiceLengthBounds terms)
  | .multiset terms => leastLower (choiceLengthBounds terms)

def choiceLengthBounds : List (List Factor) → Nat × Option Nat
  | [] => (Number.maxWord, some 0)
  | t :: rest =>
    let first := termLengthBounds t
    let others := choiceLengthBounds rest
    (min first.1 others.1, maxUpper first.2 others.2)

def termLengthBounds : List Factor → Nat × Option Nat
  | [] => (0, some 0)
  | f :: rest =>
    let first := f.lengthBounds
    let others := termLengthBounds rest
    (saturate (first.1 + others.1), addUpper first.2 others.2)

def Factor.lengthBounds : Factor → Nat × Option Nat
  | .mk e none => e.lengthBounds
  | .mk e (some q) => q.lengthBounds e.lengthBounds

def Element.lengthBounds : Element → Nat × Option Nat
  | .node _ => (0, some 0)
  | .edge _ => (1, some 1)
  | .group _ _ body _ => body.lengthBounds

end

/-! ## Idle steps -/

mutual

/-- A bound on the instructions that a match executes between two edges. A loop whose body adds no edge
goes on only until its lower bound is passed. -/
def PathExpr.idleSteps : PathExpr → Nat
  | .term factors => termIdleSteps factors
  | .union terms => choiceIdleSteps terms
  | .multiset terms => choiceIdleSteps terms

def choiceIdleSteps : List (List Factor) → Nat
  | [] => 0
  | t :: rest => 2 + termIdleSteps t + choiceIdleSteps rest

def termIdleSteps : List Factor → Nat
  | [] => 0
  | f :: rest => f.idleSteps + termIdleSteps rest

def Factor.idleSteps : Factor → Nat
  | .mk e none => e.idleSteps
  | .mk e (some q) => 3 + (q.lower + 2) * (e.idleSteps + 2)

def Element.idleSteps : Element → Nat
  | .node _ => 1
  | .edge _ => 1
  | .group _ _ body _ => 2 + body.idleSteps

end

/-! ## Programs -/

/-- A path pattern, ready to be searched for. -/
structure Program where
  name : Option String
  mode : PathMode
  selector : Selector
  code : List Inst
  /-- The least number of edges that a match can have. -/
  minLength : Nat
  /-- The greatest number of edges that a match can have. -/
  maxLength : Option Nat
  /-- A bound on the instructions between two edges. -/
  idle : Nat
  /-- The node pattern that every match starts with, if there is one. -/
  leadingNode? : Option NodePattern

namespace Program

/-- The node pattern that some code starts with, if it does. A node under a quantifier need not be met. -/
def firstNode? : List Inst → Option NodePattern
  | .node pattern false :: _ => some pattern
  | _ => none

def compile (p : PathPattern) : Program where
  name := p.name
  mode := p.modeInForce
  selector := p.selectorInForce
  code := p.expr.code false ++ [.accept]
  minLength := p.expr.lengthBounds.1
  maxLength := p.expr.lengthBounds.2
  idle := p.expr.idleSteps + 1
  leadingNode? := firstNode? (p.expr.code false ++ [.accept])

/-- The grouped variable of an instruction. -/
def groupVariable? : Inst → Option (String × VariableKind)
  | .node f true => f.name.map (·, .nodeGroup)
  | .edge e true => e.filler.name.map (·, .edgeGroup)
  | _ => none

/-- The variables that are bound to groups, in the order of the code. -/
def groupVariables (p : Program) : Assoc String VariableKind :=
  (p.code.filterMap groupVariable?).foldl (fun m v => m.insertNew v.1 v.2) []

end Program

end GraphPatterns
