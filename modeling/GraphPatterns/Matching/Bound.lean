/-
What variables are bound to, and how a name in a WHERE clause is looked up.
-/
import GraphPatterns.Assoc
import GraphPatterns.Matching.Path
import GraphPatterns.Pattern.Kind

namespace GraphPatterns

/-- What a variable is bound to. -/
inductive Bound where
  | vertex (v : VertexId)
  | edge (e : EdgeId)
  /-- The elements that a variable under a quantifier took, one for each repetition. -/
  | group (items : List ElementId)
  | path (p : Path)
deriving DecidableEq

namespace Bound

def ofElement : ElementId → Bound
  | .vertex v => .vertex v
  | .edge e => .edge e

def asVertex? : Bound → Option VertexId
  | .vertex v => some v
  | _ => none

def asEdge? : Bound → Option EdgeId
  | .edge e => some e
  | _ => none

def asGroup? : Bound → Option (List ElementId)
  | .group items => some items
  | _ => none

def asPath? : Bound → Option Path
  | .path p => some p
  | _ => none

/-- The kind of variable that can be bound so. Nothing can be said of an empty group. -/
def kind? : Bound → Option VariableKind
  | .vertex _ => some .node
  | .edge _ => some .edge
  | .group [] => none
  | .group (.vertex _ :: _) => some .nodeGroup
  | .group (.edge _ :: _) => some .edgeGroup
  | .path _ => some .path

/-- The text of what is bound; a path needs an edge before each vertex but the first. -/
def render? : Bound → Option String
  | .vertex v => some v.render
  | .edge e => some e.render
  | .group items => some ("[" ++ ", ".intercalate (items.map ElementId.render) ++ "]")
  | .path p => p.render?

end Bound

/-- Bound variables, in the order in which they were bound. -/
abbrev Bindings := Assoc String Bound

/-- Binds a variable to a path, unless it is bound to another one. -/
def Bindings.bindPath? (bindings seed : Bindings) (name : String) (p : Path) : Option Bindings :=
  match (bindings.get? name).or (seed.get? name) with
  | some there => if there = .path p then some bindings else none
  | none => some (bindings.insert name (.path p))

/-- The names that a WHERE clause can see. -/
structure Scope where
  /-- What the search has bound so far. -/
  bindings : Bindings
  /-- What was bound before the search. -/
  seed : Bindings
  /-- The element that is being tested, under its own name. -/
  candidate : Option (String × ElementId) := none
  /-- Whether a group stands for its latest element. -/
  latest : Bool := false

namespace Scope

/-- A group as a scope shows it: whole, or its latest element if there is one. -/
def show? (s : Scope) : Bound → Option Bound
  | .group items => if s.latest then items.getLast?.map .ofElement else some (.group items)
  | b => some b

def lookup (s : Scope) (name : String) : Option Bound :=
  match s.candidate with
  | some (own, e) =>
    if own = name then some (.ofElement e)
    else ((s.bindings.get? name).or (s.seed.get? name)).bind s.show?
  | none => ((s.bindings.get? name).or (s.seed.get? name)).bind s.show?

end Scope

end GraphPatterns
