/-
How a search is limited and what it counts as a tie.
-/
import GraphPatterns.Json.Record

namespace GraphPatterns

/-- What happens to paths that are as long as the last of the `k` shortest ones. -/
inductive TiePolicy where
  | includeAll
  | truncate
deriving DecidableEq, Inhabited

/-- Whether a selector counts all paths of a pattern together or those of each pair of endpoints. -/
inductive SearchScope where
  | overall
  | perEndpoints
deriving DecidableEq, Inhabited

structure MatchConfig where
  /-- The most edges that a path may have. -/
  maxPathLength : Nat := 32
  /-- The most edges that a search may look at. -/
  maxSteps : Option Nat := none
  shortestTies : TiePolicy := .includeAll
  searchScope : SearchScope := .overall
  /-- Whether labels and property keys have to be known. -/
  strictCatalog : Bool := true
deriving DecidableEq

namespace TiePolicy

def all : List TiePolicy := [.includeAll, .truncate]

def render : TiePolicy → String
  | .includeAll => "include_all"
  | .truncate => "truncate"

end TiePolicy

namespace SearchScope

def all : List SearchScope := [.overall, .perEndpoints]

def render : SearchScope → String
  | .overall => "global"
  | .perEndpoints => "per_endpoints"

end SearchScope

namespace MatchConfig

/-- A number of at most 64 bits. -/
def wordOfJson? : Json → Option Nat
  | .number n => n.asWord?
  | _ => none

def optionalWordOfJson? : Json → Option (Option Nat)
  | .null => some none
  | j => (wordOfJson? j).map some

/-- One of several choices by name: the name itself, or an object with the name as its only field and
no value in it. -/
def choiceOfJson? {α : Type} (render : α → String) (choices : List α) : Json → Option α
  | .string (some name) => choices.find? fun c => render c == name
  | .object [(some name, .null)] => choices.find? fun c => render c == name
  | _ => none

def fieldNames : List String :=
  ["max_path_length", "max_steps", "shortest_ties", "search_scope", "strict_catalog"]

/-- Reads a configuration. A field that is missing has its usual value. -/
def ofJson? (j : Json) : Option MatchConfig := do
  let usual : MatchConfig := {}
  let fields ← Json.record? fieldNames j
  match fields with
  | [length, steps, ties, scope, strict] =>
    let maxPathLength ← Json.orDefault? usual.maxPathLength wordOfJson? length
    let maxSteps ← Json.orDefault? usual.maxSteps optionalWordOfJson? steps
    let shortestTies ←
      Json.orDefault? usual.shortestTies (choiceOfJson? TiePolicy.render TiePolicy.all) ties
    let searchScope ←
      Json.orDefault? usual.searchScope (choiceOfJson? SearchScope.render SearchScope.all) scope
    let strictCatalog ← Json.orDefault? usual.strictCatalog Json.asBool? strict
    return { maxPathLength, maxSteps, shortestTies, searchScope, strictCatalog }
  | _ => none

def toJson (c : MatchConfig) : Json :=
  Json.ofFields [
    ("max_path_length", Json.ofNat c.maxPathLength),
    ("max_steps", (c.maxSteps.map Json.ofNat).getD .null),
    ("shortest_ties", Json.text c.shortestTies.render),
    ("search_scope", Json.text c.searchScope.render),
    ("strict_catalog", .bool c.strictCatalog)]

end MatchConfig

end GraphPatterns
