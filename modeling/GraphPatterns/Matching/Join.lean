/-
The matches of a graph pattern. Its path patterns are joined from left to right: each solution of one
opens a search of the next, which starts with what is bound so far. Open searches lie on a stack, so
matches are found one by one and the search goes on where it stopped.
-/
import GraphPatterns.Matching.Search
import GraphPatterns.Pattern.Validation

namespace GraphPatterns

/-- A match: the bound variables, and the path of each path pattern. -/
structure Match where
  bindings : Bindings
  paths : List Path
deriving DecidableEq

/-- The conditions on matches of several path patterns. -/
structure Join where
  env : Env
  condition : Option Expr
  /-- Whether no edge may be in two places of a match. -/
  distinctEdges : Bool

/-- The open search of one path pattern. -/
structure Level where
  search : Search
  /-- The path patterns after it. -/
  later : List Program
  /-- The paths of those before it. -/
  before : List Path

/-- The open searches of a join, the last one first, and what has been done so far. -/
structure Cursor where
  levels : List Level
  tally : Tally

namespace Level

/-- A search with fewer path patterns after it is smaller, however much there is to search. -/
def Smaller (a b : Level) : Prop :=
  Prod.Lex (· < ·) (Relation.TransGen Search.Smaller) (a.later.length, a.search)
    (b.later.length, b.search)

theorem smaller_wf : WellFounded Smaller :=
  InvImage.wf (fun l : Level => (l.later.length, l.search))
    (Prod.lex Nat.lt_wfRel ⟨_, Search.smaller_wf.transGen⟩).wf

end Level

/-- What a step of a join leads to. -/
inductive Step where
  | exhausted
  | goesOn (c : Cursor)
  | yields (m : Match) (c : Cursor)

/-- The cursor that a step leads to, if it leads to one. -/
def Step.cursor? : Step → Option Cursor
  | .exhausted => none
  | .goesOn c => some c
  | .yields _ c => some c

namespace Join

/-- Whether a combination of paths is a match. -/
def admits (j : Join) (bindings : Bindings) (paths : List Path) : Bool :=
  j.condition.all (fun e => e.holds j.env.store ⟨bindings, j.env.seed, none, false⟩) &&
    (!j.distinctEdges || (paths.flatMap (·.edges)).Nodup)

/-- The bindings of a match: those from before it, then those of the search. -/
def combine (seed bindings : Bindings) : Bindings :=
  bindings.foldl (fun m b => m.insert b.1 b.2) seed

/-- The cursor before the first match. -/
def begin (j : Join) : List Program → Cursor
  | [] => ⟨[], {}⟩
  | p :: later =>
    let (tally, search) := Search.begin j.env {} p []
    ⟨[⟨search, later, []⟩], tally⟩

/-- Asks the last open search for its next solution. -/
def step (j : Join) (c : Cursor) : Step :=
  if c.tally.truncated && c.tally.isSpent j.env.config then .exhausted
  else
    match c.levels with
    | [] => .exhausted
    | l :: outer =>
      match l.search.next j.env c.tally with
      | (tally, none) => .goesOn ⟨outer, tally⟩
      | (tally, some (solution, search)) =>
        let paths := l.before ++ [solution.path]
        let left := { l with search := search } :: outer
        match l.later with
        | p :: later =>
          let (tally, inner) := Search.begin j.env tally p solution.bindings
          .goesOn ⟨⟨inner, later, paths⟩ :: left, tally⟩
        | [] =>
          if j.admits solution.bindings paths then
            .yields ⟨combine j.env.seed solution.bindings, paths⟩ ⟨left, tally.yielded⟩
          else .goesOn ⟨left, tally.pruned⟩

def Smaller (a b : Cursor) : Prop := Replaces Level.Smaller a.levels b.levels

theorem smaller_wf : WellFounded Smaller :=
  InvImage.wf Cursor.levels (Replaces.wellFounded Level.smaller_wf)

theorem step_smaller {j : Join} {c d : Cursor} (h : (j.step c).cursor? = some d) :
    Smaller d c := by
  unfold step at h
  split at h
  · cases h
  · split at h
    · cases h
    · next l outer hl =>
      unfold Smaller
      rw [hl]
      split at h
      · cases h
        exact .pop _ _
      · next tally solution search hn =>
        have hs : Level.Smaller { l with search := search } l :=
          .right _ (Search.next_smaller (by rw [hn]))
        split at h
        · next p later hlater =>
          cases h
          exact .grow _ (.left _ _ (by simp [hlater])) hs
        · dsimp only at h
          split at h <;> cases h <;> exact .swap _ hs

instance : WellFoundedRelation Cursor := ⟨Smaller, smaller_wf⟩

/-- Goes on to the next match, or to the end. -/
def next (j : Join) (c : Cursor) : Option Match × Cursor :=
  match h : j.step c with
  | .exhausted => (none, c)
  | .yields m d => (some m, d)
  | .goesOn d =>
    have : Smaller d c := step_smaller (by rw [h]; rfl)
    next j d
termination_by c
decreasing_by all_goals assumption

/-- All further matches after those that are there already, and the cursor at the end. -/
def collect (j : Join) (found : Array Match) (c : Cursor) : List Match × Cursor :=
  match h : j.step c with
  | .exhausted => (found.toList, c)
  | .yields m d =>
    have : Smaller d c := step_smaller (by rw [h]; rfl)
    collect j (found.push m) d
  | .goesOn d =>
    have : Smaller d c := step_smaller (by rw [h]; rfl)
    collect j found d
termination_by c
decreasing_by all_goals assumption

end Join

/-! ## Patterns -/

/-- The kinds of the variables that are bound before a match. -/
def Bindings.kinds (bindings : Bindings) : VariableKinds :=
  Assoc.ofList (bindings.filterMap fun b => b.2.kind?.map (b.1, ·))

/-- A pattern that is ready to be searched for, with its cursor before the first match. -/
def GraphPattern.search (g : GraphPattern) (env : Env) : Except PatternError (Join × Cursor) := do
  let _ ← g.validate env.store env.config.strictCatalog env.seed.kinds
  let join : Join := ⟨env, g.condition, g.mode == some .differentEdges⟩
  return (join, join.begin (g.paths.map Program.compile))

/-- The graph pattern of a single path pattern. -/
def PathPattern.toGraphPattern (p : PathPattern) : GraphPattern := { paths := [p] }

/-- All matches of a pattern in order, and what the search did. -/
def GraphPattern.matches (g : GraphPattern) (env : Env) :
    Except PatternError (List Match × Tally) := do
  let (join, cursor) ← g.search env
  let (found, cursor) := join.collect #[] cursor
  return (found, cursor.tally)

end GraphPatterns
