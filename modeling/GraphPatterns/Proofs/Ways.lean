/-
What a pattern means, by recursion on the pattern. The ways of a pattern from a stage of a match are
the stages that a match can have reached after it, in order and with repeats: a term passes each way of
a factor on to the next factor, a choice lists the ways of its terms from left to right, and something
repeated lists first the ways that stop and then those that go on.

No machine is needed for this: there are no places in a program, no agenda and no stacks of loops and
groups.
-/
import GraphPatterns.Matching.Search

namespace GraphPatterns

/-- How far a match has come. -/
structure Stage where
  walk : Walk
  bindings : Bindings
  /-- The elements that grouped variables took in the repetitions that still go on. -/
  taken : Assoc String ElementId
  /-- How many more edges the walk may have. -/
  room : Nat

namespace Stage

/-- The element that a variable took in a repetition that still goes on. -/
def takenBy? (s : Stage) (name : Option String) : Option ElementId := name.bind s.taken.get?

/-- Binds a variable to an element; under a quantifier, adds the element to the group of the variable,
unless it has taken one in this repetition. -/
def bind (s : Stage) (name : Option String) (repeated : Bool) (x : ElementId) : Stage :=
  match name with
  | none => s
  | some name =>
    if !repeated then { s with bindings := s.bindings.insertNew name (.ofElement x) }
    else if (s.takenBy? (some name)).isSome then s
    else
      { s with
        taken := s.taken ++ [(name, x)]
        bindings := Thread.collect s.bindings name x }

/-- The stage after an edge. -/
def cross (s : Stage) (pattern : EdgePattern) (repeated : Bool) (e : EdgeId) (v : VertexId)
    (room : Nat) : Stage :=
  bind { s with walk := s.walk.extend e v, room := room } pattern.filler.name repeated (.edge e)

end Stage

/-- What stands around a part of a pattern. -/
structure Surroundings where
  env : Env
  /-- The mode of the whole path. -/
  mode : PathMode
  /-- The groups around the part, the innermost first. -/
  frames : List Frame
  /-- Whether there is a quantifier around the part. -/
  repeated : Bool

namespace Surroundings

/-- Whether the walk may go on over an edge, by the mode of the path and those of all groups. -/
def admitsStep (c : Surroundings) (w : Walk) (e : EdgeId) (v : VertexId) : Bool :=
  c.mode.admits w.toPath e v && c.frames.all fun f => f.mode.admits (w.since f.start).toPath e v

/-- Whether an element meets what a filler asks for at a stage. -/
def admits (c : Surroundings) (s : Stage) (f : Filler) (x : ElementId) : Bool :=
  f.admits c.env s.bindings c.repeated (s.takenBy? f.name) x

end Surroundings

/-- The ways to repeat something of which there have been `n` repetitions. Below the lower bound there
has to be another one and at the upper bound there is none; in between, stopping comes first. A
repetition beyond the lower bound that takes no edge leads nowhere. What grouped variables took in a
repetition is forgotten at its end. -/
def repetitions (body : Stage → List Stage) (lower : Nat) (upper : Option Nat) (n : Nat)
    (s : Stage) : List Stage :=
  if h : n < lower then
    (body s).flatMap fun u => repetitions body lower upper (n + 1) { u with taken := s.taken }
  else if upper = some n then [s]
  else
    s :: (body s).flatMap fun u =>
      if u.room < s.room then repetitions body lower upper (n + 1) { u with taken := s.taken }
      else []
termination_by (lower - n, s.room)
decreasing_by
  · exact .left _ _ (by omega)
  · have : lower - (n + 1) = lower - n := by omega
    rw [this]
    exact .right _ (by assumption)

/-- Stopping comes before going on. -/
theorem repetitions_eq {body : Stage → List Stage} {lower n : Nat} {upper : Option Nat} {s : Stage} :
    repetitions body lower upper n s =
      (if n < lower then [] else [s]) ++
        if lower ≤ n ∧ upper = some n then []
        else (body s).flatMap fun u =>
          if n < lower ∨ u.room < s.room then
            repetitions body lower upper (n + 1) { u with taken := s.taken }
          else [] := by
  conv => lhs; rw [repetitions]
  by_cases hn : n < lower
  · have : ¬(lower ≤ n ∧ upper = some n) := by omega
    simp [hn, this]
  · have : lower ≤ n := by omega
    simp only [hn, this, if_false, dif_neg, not_false_iff, true_and, false_or]
    split <;> simp

mutual

/-- The ways to match a choice between terms. Without any terms there is nothing to match. -/
def PathExpr.ways : PathExpr → Surroundings → Stage → List Stage
  | .term factors, c, s => termWays factors c s
  | .union terms, c, s => if terms.isEmpty then [s] else choiceWays terms c s
  | .multiset terms, c, s => if terms.isEmpty then [s] else choiceWays terms c s

def choiceWays : List (List Factor) → Surroundings → Stage → List Stage
  | [], _, _ => []
  | t :: rest, c, s => termWays t c s ++ choiceWays rest c s

def termWays : List Factor → Surroundings → Stage → List Stage
  | [], _, s => [s]
  | f :: rest, c, s => (f.ways c s).flatMap fun u => termWays rest c u

def Factor.ways : Factor → Surroundings → Stage → List Stage
  | .mk e none, c, s => e.ways c s
  | .mk e (some q), c, s => repetitions (e.ways { c with repeated := true }) q.lower q.upper 0 s

/-- The ways to match an element. An edge goes to the neighbours in the order of the store; the path
of a group is bound and its condition tested after the group. -/
def Element.ways : Element → Surroundings → Stage → List Stage
  | .node f, c, s =>
    let x := ElementId.vertex s.walk.current
    if c.admits s f x then [s.bind f.name c.repeated x] else []
  | .edge pattern, c, s =>
    match s.room with
    | 0 => []
    | room + 1 =>
      (c.env.store.neighbors s.walk.current pattern.direction).flatMap fun edge =>
        if c.admitsStep s.walk edge.1 edge.2 && c.admits s pattern.filler (.edge edge.1) then
          [s.cross pattern c.repeated edge.1 edge.2 room]
        else []
  | .group name mode body condition, c, s =>
    let start := s.walk.length
    let inside := { c with frames := ⟨mode.getD .walk, start⟩ :: c.frames }
    (body.ways inside s).flatMap fun u =>
      match Thread.closeGroup? c.env u.bindings (u.walk.since start).toPath name condition
          c.repeated with
      | some bindings => [{ u with bindings := bindings }]
      | none => []

end

/-- The stage before a match that starts at a vertex. -/
def Stage.start (v : VertexId) (base : Bindings) (limit : Nat) : Stage := ⟨⟨v, []⟩, base, [], limit⟩

/-- The ways to match a path pattern with at most `limit` edges, from the start vertices in order. -/
def PathPattern.ways (p : PathPattern) (env : Env) (base : Bindings) (limit : Nat) : List Stage :=
  (startVertices env (.compile p) base).flatMap fun v =>
    p.expr.ways ⟨env, p.modeInForce, [], false⟩ (.start v base limit)

end GraphPatterns
