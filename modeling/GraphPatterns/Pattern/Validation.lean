/-
Patterns that make sense. A pattern is refused if a quantifier has crossed bounds, if a variable would
stand for two kinds of things, or if it mentions a name that is not known; the first reason in this
order is reported. Labels and property keys are checked against the catalogue only if it is strict.
-/
import GraphPatterns.Graph.Store
import GraphPatterns.Pattern.Kind

namespace GraphPatterns

/-- Why a pattern is refused. -/
inductive PatternError where
  /-- A quantifier with a lower bound above its upper bound. -/
  | crossedBounds (lower upper : Nat)
  | twoKinds (name : String) (first second : VariableKind)
  | repeatedPath (name : String)
  /-- A variable that is bound before the match to another kind of thing. -/
  | boundOtherwise (name : String) (bound declared : VariableKind)
  | unknownLabel (label : String)
  | unknownKey (key : String)
  | undefinedVariable (name : String)
deriving DecidableEq

def PatternError.message : PatternError → String
  | .crossedBounds lower upper =>
    "Quantifier \x7b" ++ toString lower ++ "," ++ toString upper ++
      "\x7d has lower bound greater than upper bound"
  | .twoKinds name first second =>
    "Variable '" ++ name ++ "' is declared as both " ++ first.render ++ " and " ++ second.render
  | .repeatedPath name =>
    "Subpath variable '" ++ name ++ "' cannot be declared inside a quantified pattern"
  | .boundOtherwise name bound declared =>
    "Variable '" ++ name ++ "' is bound to a " ++ bound.render ++ " but the pattern declares a " ++
      declared.render
  | .unknownLabel label => "Unknown label '" ++ label ++ "'"
  | .unknownKey key => "Unknown property key '" ++ key ++ "'"
  | .undefinedVariable name => "Variable '" ++ name ++ "' is not defined"

/-- The kinds of variables, in the order in which the variables are declared. -/
abbrev VariableKinds := Assoc String VariableKind

/-! ## Quantifiers -/

mutual

/-- The quantifiers of a choice between terms; that of a factor goes before those inside it. -/
def PathExpr.quantifiers : PathExpr → List Quantifier
  | .term factors => termQuantifiers factors
  | .union terms => termsQuantifiers terms
  | .multiset terms => termsQuantifiers terms

def termsQuantifiers : List (List Factor) → List Quantifier
  | [] => []
  | t :: rest => termQuantifiers t ++ termsQuantifiers rest

def termQuantifiers : List Factor → List Quantifier
  | [] => []
  | f :: rest => f.quantifiers ++ termQuantifiers rest

def Factor.quantifiers : Factor → List Quantifier
  | .mk e q => q.toList ++ e.quantifiers

def Element.quantifiers : Element → List Quantifier
  | .node _ => []
  | .edge _ => []
  | .group _ _ body _ => body.quantifiers

end

def Quantifier.check : Quantifier → Except PatternError Unit
  | .between n m => if m < n then .error (.crossedBounds n m) else .ok ()
  | _ => .ok ()

/-! ## Declarations -/

/-- Enters a declaration. A variable may be declared again with the same kind. -/
def VariableKinds.declare (kinds : VariableKinds) : Declaration → Except PatternError VariableKinds
  | .repeatedPath name => .error (.repeatedPath name)
  | .variable name kind =>
    match kinds.get? name with
    | none => .ok (kinds.insert name kind)
    | some first => if first = kind then .ok kinds else .error (.twoKinds name first kind)

def VariableKinds.ofDeclarations (ds : List Declaration) : Except PatternError VariableKinds :=
  ds.foldlM VariableKinds.declare []

/-- The variables that stand for lists. -/
def VariableKinds.groups (kinds : VariableKinds) : VariableKinds := kinds.filter (·.2.isGroup)

/-- Whether a variable that is bound before the match has the kind that the pattern declares. -/
def VariableKinds.checkBound (kinds : VariableKinds) (entry : String × VariableKind) :
    Except PatternError Unit :=
  match kinds.get? entry.1 with
  | some declared =>
    if declared = entry.2 then .ok () else .error (.boundOtherwise entry.1 entry.2 declared)
  | none => .ok ()

/-! ## Mentions -/

/-- A name that a pattern uses. -/
inductive Mention where
  | label (name : String)
  | key (name : String)
  | variable (name : String)

/-- The names in a WHERE clause: the variables, then the property keys. -/
def Expr.mentions (e : Expr) : List Mention := e.vars.map .variable ++ e.keys.map .key

def conditionMentions : Option Expr → List Mention
  | some e => e.mentions
  | none => []

def Filler.mentions (f : Filler) : List Mention :=
  (match f.label with
    | some e => e.names.map .label
    | none => []) ++ f.properties.map (fun p => .key p.1) ++ conditionMentions f.condition

mutual

/-- The names in a choice between terms; those of a condition on a group come after the group. -/
def PathExpr.mentions : PathExpr → List Mention
  | .term factors => termMentions factors
  | .union terms => termsMentions terms
  | .multiset terms => termsMentions terms

def termsMentions : List (List Factor) → List Mention
  | [] => []
  | t :: rest => termMentions t ++ termsMentions rest

def termMentions : List Factor → List Mention
  | [] => []
  | f :: rest => f.mentions ++ termMentions rest

def Factor.mentions : Factor → List Mention
  | .mk e _ => e.mentions

def Element.mentions : Element → List Mention
  | .node n => n.mentions
  | .edge e => e.filler.mentions
  | .group _ _ body condition => body.mentions ++ conditionMentions condition

end

def GraphPattern.mentions (g : GraphPattern) : List Mention :=
  g.paths.flatMap (·.expr.mentions) ++ conditionMentions g.condition

/-- Whether a name is known: a label or a key to the catalogue, a variable to the pattern or to the
bindings that are there before the match. -/
def Mention.check (store : Store) (strict : Bool) (kinds bound : VariableKinds) :
    Mention → Except PatternError Unit
  | .label name => if strict && !store.knowsLabel name then .error (.unknownLabel name) else .ok ()
  | .key name => if strict && !store.knowsKey name then .error (.unknownKey name) else .ok ()
  | .variable name =>
    if kinds.has name || bound.has name then .ok () else .error (.undefinedVariable name)

/-! ## Patterns -/

/-- The kinds of the variables of a pattern, if the pattern makes sense. -/
def GraphPattern.validate (g : GraphPattern) (store : Store) (strict : Bool)
    (bound : VariableKinds) : Except PatternError VariableKinds := do
  (g.paths.flatMap (·.expr.quantifiers)).forM Quantifier.check
  let kinds ← VariableKinds.ofDeclarations (g.paths.flatMap PathPattern.declarations)
  bound.forM kinds.checkBound
  g.mentions.forM (Mention.check store strict kinds bound)
  return kinds

end GraphPatterns
