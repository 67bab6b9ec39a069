/-
Graph patterns. A graph pattern is a list of path patterns to be joined; a path pattern is a choice
between terms, a term a sequence of factors, and a factor a node, an edge or a pattern between
parentheses, possibly repeated.
-/
import GraphPatterns.Graph.Ident
import GraphPatterns.Pattern.Expr
import GraphPatterns.Pattern.Label

namespace GraphPatterns

/-- Which paths count as matches. -/
inductive PathMode where
  /-- Any path. -/
  | walk
  /-- No edge twice. -/
  | trail
  /-- No vertex twice, save that the last may be the first. -/
  | simple
  /-- No vertex twice. -/
  | acyclic
deriving DecidableEq, Inhabited

def PathMode.all : List PathMode := [.walk, .trail, .simple, .acyclic]

/-- Whether the path patterns of one match may share edges. -/
inductive MatchMode where
  | repeatable
  | differentEdges
deriving DecidableEq, Inhabited

def MatchMode.all : List MatchMode := [.repeatable, .differentEdges]

/-- Which of the matching paths are wanted. -/
inductive Selector where
  | all
  | any
  | anyK (k : Nat)
  | allShortest
  | anyShortest
  | shortestK (k : Nat)
  /-- All paths of the `k` least lengths. -/
  | shortestGroups (k : Nat)
deriving DecidableEq, Inhabited

/-- Whether the paths are wanted in order of length. -/
def Selector.isShortest : Selector → Bool
  | .allShortest | .anyShortest | .shortestK _ | .shortestGroups _ => true
  | _ => false

/-- How often a factor is repeated. -/
inductive Quantifier where
  | zeroOrMore
  | oneOrMore
  | zeroOrOne
  | exactly (n : Nat)
  | atLeast (n : Nat)
  | atMost (m : Nat)
  | between (n m : Nat)
deriving DecidableEq, Inhabited

namespace Quantifier

/-- The least number of repetitions. -/
def lower : Quantifier → Nat
  | .zeroOrMore | .zeroOrOne | .atMost _ => 0
  | .oneOrMore => 1
  | .exactly n | .atLeast n | .between n _ => n

/-- The greatest number of repetitions, if there is one. -/
def upper : Quantifier → Option Nat
  | .zeroOrMore | .oneOrMore | .atLeast _ => none
  | .zeroOrOne => some 1
  | .exactly n | .atMost n | .between _ n => some n

end Quantifier

/-- What is asked of one element. -/
structure Filler where
  name : Option String := none
  label : Option LabelExpr := none
  properties : List (String × Value) := []
  condition : Option Expr := none
deriving Inhabited

namespace Filler

/-- Asks for a further label: one that has to be there as well. -/
def andLabel (f : Filler) (label : String) : Filler :=
  { f with label := match f.label with
      | some e => some (.conjunction [e, .name label])
      | none => some (.name label) }

/-- Allows a further label: one that may be there instead. -/
def orLabel (f : Filler) (label : String) : Filler :=
  { f with label := match f.label with
      | some e => some (.disjunction [e, .name label])
      | none => some (.name label) }

end Filler

/-- A node pattern. -/
abbrev NodePattern := Filler

/-- An edge pattern. The abbreviated form is written as a bare arrow. -/
structure EdgePattern where
  filler : Filler := {}
  direction : Direction
  abbreviated : Bool := false
deriving Inhabited

mutual

/-- A choice between terms. A union and a multiset alternation match alike. -/
inductive PathExpr where
  | term (factors : List Factor)
  | union (terms : List (List Factor))
  | multiset (terms : List (List Factor))

/-- An element, possibly repeated. -/
inductive Factor where
  | mk (element : Element) (quantifier : Option Quantifier)

inductive Element where
  | node (pattern : NodePattern)
  | edge (pattern : EdgePattern)
  /-- A pattern between parentheses, with a variable for its sub-path, a mode and a condition of its
  own. -/
  | group (name : Option String) (mode : Option PathMode) (body : PathExpr)
      (condition : Option Expr)

end

instance : Inhabited PathExpr := ⟨.term []⟩

instance : Inhabited Element := ⟨.node {}⟩

instance : Inhabited Factor := ⟨.mk default none⟩

/-- A sequence of factors. -/
abbrev Term := List Factor

namespace Factor

def element : Factor → Element
  | .mk e _ => e

def quantifier : Factor → Option Quantifier
  | .mk _ q => q

end Factor

/-- The terms to choose from, from left to right. -/
def PathExpr.terms : PathExpr → List Term
  | .term t => [t]
  | .union ts => ts
  | .multiset ts => ts

/-- A path pattern. -/
structure PathPattern where
  name : Option String := none
  mode : Option PathMode := none
  selector : Option Selector := none
  expr : PathExpr := .term []
deriving Inhabited

namespace PathPattern

/-- The mode in force: any path, unless another is written. -/
def modeInForce (p : PathPattern) : PathMode := p.mode.getD .walk

/-- The selector in force: all paths, unless another is written. -/
def selectorInForce (p : PathPattern) : Selector := p.selector.getD .all

end PathPattern

/-- Path patterns to be joined, with a condition on the joined match. -/
structure GraphPattern where
  mode : Option MatchMode := none
  paths : List PathPattern := []
  condition : Option Expr := none
deriving Inhabited

end GraphPatterns
