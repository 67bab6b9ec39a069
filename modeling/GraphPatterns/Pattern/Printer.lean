/-
The text of patterns.
-/
import GraphPatterns.Pattern.Basic

namespace GraphPatterns

def PathMode.render : PathMode → String
  | .walk => "WALK"
  | .trail => "TRAIL"
  | .simple => "SIMPLE"
  | .acyclic => "ACYCLIC"

def MatchMode.render : MatchMode → String
  | .repeatable => "REPEATABLE ELEMENTS"
  | .differentEdges => "DIFFERENT EDGES"

def Selector.render : Selector → String
  | .all => "ALL"
  | .any => "ANY"
  | .anyK k => "ANY " ++ toString k
  | .allShortest => "ALL SHORTEST"
  | .anyShortest => "ANY SHORTEST"
  | .shortestK k => "SHORTEST " ++ toString k
  | .shortestGroups k => "SHORTEST " ++ toString k ++ " GROUPS"

def Quantifier.render : Quantifier → String
  | .zeroOrMore => "*"
  | .oneOrMore => "+"
  | .zeroOrOne => "?"
  | .exactly n => "\x7b" ++ toString n ++ "\x7d"
  | .atLeast n => "\x7b" ++ toString n ++ ",\x7d"
  | .atMost m => "\x7b," ++ toString m ++ "\x7d"
  | .between n m => "\x7b" ++ toString n ++ "," ++ toString m ++ "\x7d"

/-- Text that stands only if something is there. -/
def renderOption {α : Type} (render : α → String) : Option α → String
  | none => ""
  | some a => render a

/-- A WHERE clause after what it belongs to. -/
def renderCondition : Option Expr → String := renderOption fun e => " WHERE " ++ e.render

def Filler.render (f : Filler) : String :=
  let properties :=
    if f.properties.isEmpty then ""
    else
      let parts := f.properties.map fun (k, v) => k ++ ": " ++ v.render
      " \x7b" ++ ", ".intercalate parts ++ "\x7d"
  f.name.getD "" ++ renderOption (fun e => ":" ++ e.render) f.label ++ properties ++
    renderCondition f.condition

/-- The arrow of a full edge pattern, before and after its filler. -/
def Direction.brackets : Direction → String × String
  | .right => ("-[", "]->")
  | .left => ("<-[", "]-")
  | .undirected => ("~[", "]~")
  | .any => ("-[", "]-")
  | .leftOrUndirected => ("<~[", "]~")
  | .undirectedOrRight => ("~[", "]~>")
  | .leftOrRight => ("<-[", "]->")

def renderNode (n : NodePattern) : String := "(" ++ n.render ++ ")"

def EdgePattern.render (e : EdgePattern) : String :=
  if e.abbreviated then e.direction.render
  else e.direction.brackets.1 ++ e.filler.render ++ e.direction.brackets.2

mutual

def PathExpr.render : PathExpr → String
  | .term factors => renderTerm factors
  | .union terms => " | ".intercalate (renderTerms terms)
  | .multiset terms => " |+| ".intercalate (renderTerms terms)

def renderTerms : List (List Factor) → List String
  | [] => []
  | t :: rest => renderTerm t :: renderTerms rest

def renderTerm : List Factor → String
  | [] => ""
  | f :: rest => f.render ++ renderTerm rest

def Factor.render : Factor → String
  | .mk e q => e.render ++ renderOption Quantifier.render q

def Element.render : Element → String
  | .node n => renderNode n
  | .edge e => e.render
  | .group name mode body condition =>
    "(" ++ renderOption (· ++ " = ") name ++ renderOption (·.render ++ " ") mode ++ body.render ++
      renderCondition condition ++ ")"

end

def PathPattern.render (p : PathPattern) : String :=
  renderOption (· ++ " = ") p.name ++ renderOption (·.render ++ " ") p.selector ++
    renderOption (·.render ++ " ") p.mode ++ p.expr.render

def GraphPattern.render (g : GraphPattern) : String :=
  renderOption (·.render ++ " ") g.mode ++ ", ".intercalate (g.paths.map PathPattern.render) ++
    renderCondition g.condition

end GraphPatterns
