/-
What the variables of a pattern stand for, and the declarations of a pattern in order.
-/
import GraphPatterns.Pattern.Basic

namespace GraphPatterns

/-- What a variable stands for. -/
inductive VariableKind where
  | node
  | edge
  /-- A list of vertices, one for each repetition. -/
  | nodeGroup
  /-- A list of edges, one for each repetition. -/
  | edgeGroup
  | path
deriving DecidableEq, Inhabited

namespace VariableKind

/-- All five kinds. -/
def all : List VariableKind := [.node, .edge, .nodeGroup, .edgeGroup, .path]

/-- The kind of the same variable under a quantifier. -/
def grouped : VariableKind → VariableKind
  | .node => .nodeGroup
  | .edge => .edgeGroup
  | k => k

def isGroup : VariableKind → Bool
  | .nodeGroup | .edgeGroup => true
  | _ => false

def render : VariableKind → String
  | .node => "node"
  | .edge => "edge"
  | .nodeGroup => "node group"
  | .edgeGroup => "edge group"
  | .path => "path"

/-- A kind, grouped or not. -/
def underQuantifier (k : VariableKind) (repeated : Bool) : VariableKind :=
  if repeated then k.grouped else k

end VariableKind

/-- A place at which a pattern declares a variable. -/
inductive Declaration where
  | variable (name : String) (kind : VariableKind)
  /-- A variable for a sub-path of which there would be one for each repetition. -/
  | repeatedPath (name : String)

/-- The declaration of an element, if it has a name. -/
def Filler.declaration (f : Filler) (kind : VariableKind) : List Declaration :=
  match f.name with
  | some name => [.variable name kind]
  | none => []

mutual

/-- The declarations of a choice between terms, from left to right. -/
def PathExpr.declarations (repeated : Bool) : PathExpr → List Declaration
  | .term factors => termDeclarations repeated factors
  | .union terms => termsDeclarations repeated terms
  | .multiset terms => termsDeclarations repeated terms

def termsDeclarations (repeated : Bool) : List (List Factor) → List Declaration
  | [] => []
  | t :: rest => termDeclarations repeated t ++ termsDeclarations repeated rest

def termDeclarations (repeated : Bool) : List Factor → List Declaration
  | [] => []
  | f :: rest => f.declarations repeated ++ termDeclarations repeated rest

def Factor.declarations (repeated : Bool) : Factor → List Declaration
  | .mk e q => e.declarations (repeated || q.isSome)

def Element.declarations (repeated : Bool) : Element → List Declaration
  | .node n => n.declaration (VariableKind.node.underQuantifier repeated)
  | .edge e => e.filler.declaration (VariableKind.edge.underQuantifier repeated)
  | .group name _ body _ =>
    let own : List Declaration :=
      match name with
      | none => []
      | some name => if repeated then [.repeatedPath name] else [.variable name .path]
    own ++ body.declarations repeated

end

/-- The declarations of a path pattern: its own name, then those of its elements. -/
def PathPattern.declarations (p : PathPattern) : List Declaration :=
  (match p.name with
    | some name => [.variable name .path]
    | none => []) ++ p.expr.declarations false

end GraphPatterns
