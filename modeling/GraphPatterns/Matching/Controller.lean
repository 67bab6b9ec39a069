/-
Which candidates of a search are wanted, and when no more are. Selectors of shortest paths are given
their candidates in order of length.
-/
import GraphPatterns.Config
import GraphPatterns.Pattern.Basic

namespace GraphPatterns

/-- The state of a choice among candidates. -/
structure Controller where
  selector : Selector
  ties : TiePolicy
  /-- Whether all that is wanted has been found. -/
  terminated : Bool
  /-- The number of accepted candidates. -/
  accepted : Nat := 0
  /-- The number of lengths among them. -/
  classes : Nat := 0
  first : Option Nat := none
  last : Option Nat := none
deriving DecidableEq

namespace Controller

/-- Nothing has been offered yet; where no path is wanted that is the end already. -/
def start (selector : Selector) (ties : TiePolicy) : Controller where
  selector := selector
  ties := ties
  terminated :=
    match selector with
    | .anyK k | .shortestK k | .shortestGroups k => k == 0
    | _ => false

/-- Whether a candidate of the given length is accepted, and whether the choice ends with it. -/
def judge (c : Controller) (length : Nat) : Bool × Bool :=
  match c.selector with
  | .all => (true, false)
  | .any => (true, true)
  | .anyK k => (true, k ≤ c.accepted + 1)
  | .anyShortest => (true, true)
  | .allShortest =>
    match c.first with
    | some first => if first < length then (false, true) else (true, false)
    | none => (true, false)
  | .shortestK k =>
    if c.accepted < k then (true, k ≤ c.accepted + 1 && c.ties == .truncate)
    else if c.last = some length then (true, false)
    else (false, true)
  | .shortestGroups k =>
    if c.last = some length ∨ c.classes < k then (true, false) else (false, true)

/-- Counts an accepted candidate. -/
def accept (c : Controller) (length : Nat) : Controller :=
  { c with
    classes := if c.last = some length then c.classes else c.classes + 1
    accepted := c.accepted + 1
    first := c.first.or (some length)
    last := some length }

/-- Offers a candidate; the answer is whether it is wanted. -/
def offer (c : Controller) (length : Nat) : Bool × Controller :=
  if c.terminated then (false, c)
  else
    let (wanted, ends) := c.judge length
    (wanted, { (if wanted then c.accept length else c) with terminated := ends })

/-- Ends a length: all candidates of that length have been offered. A choice that has what it wants
ends here and does not wait for a longer candidate. -/
def endLength (c : Controller) (length : Nat) : Controller :=
  if c.terminated || c.last != some length then c
  else
    let satisfied :=
      match c.selector with
      | .allShortest => true
      | .shortestK k => k ≤ c.accepted
      | .shortestGroups k => k ≤ c.classes
      | _ => false
    { c with terminated := satisfied }

end Controller

end GraphPatterns
