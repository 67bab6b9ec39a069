/-
The search for the matches of one path pattern. What is still to be tried lies on an agenda: threads
to go on with, and threads that wait at a vertex with the edges that they have not tried yet. A search
for all paths runs once up to the greatest length; a search for shortest paths runs in rounds, each of
which takes the paths of one length, until no more are wanted or nothing was cut off at that length.

`Search.step` does one small step. Each step makes the search smaller (`Search.step_smaller`), so
`Search.next` comes to the next solution or to the end.
-/
import GraphPatterns.Matching.Controller
import GraphPatterns.Matching.Descent
import GraphPatterns.Matching.Thread

namespace GraphPatterns

/-- What a search has done so far. -/
structure Tally where
  /-- Start vertices tried. -/
  startsTried : Nat := 0
  /-- Edges looked at. -/
  edgesExpanded : Nat := 0
  /-- Branches that a condition, a mode or a limit cut off. -/
  branchesPruned : Nat := 0
  /-- Results handed out. -/
  resultsYielded : Nat := 0
  /-- Whether a limit may have cut off results. -/
  truncated : Bool := false
deriving DecidableEq

namespace Tally

def triedStart (t : Tally) : Tally := { t with startsTried := t.startsTried + 1 }

def expanded (t : Tally) : Tally := { t with edgesExpanded := t.edgesExpanded + 1 }

def pruned (t : Tally) : Tally := { t with branchesPruned := t.branchesPruned + 1 }

def yielded (t : Tally) : Tally := { t with resultsYielded := t.resultsYielded + 1 }

def cutOff (t : Tally) : Tally := { t with truncated := true }

/-- Whether no more edges may be looked at. -/
def isSpent (t : Tally) (c : MatchConfig) : Bool := c.maxSteps.any (· ≤ t.edgesExpanded)

end Tally

/-- A match of one path pattern. -/
structure Solution where
  bindings : Bindings
  path : Path

/-! ## Choosing -/

/-- The choice among the candidates of a search: one for all of them, or one for each pair of
endpoints that has been met. -/
inductive Judge where
  | overall (c : Controller)
  | perPair (cs : Assoc (VertexId × VertexId) Controller)

namespace Judge

def start (scope : SearchScope) (fresh : Controller) : Judge :=
  match scope with
  | .overall => .overall fresh
  | .perEndpoints => .perPair []

/-- Offers a candidate with the given endpoints. -/
def offer (fresh : Controller) (ends : VertexId × VertexId) (length : Nat) : Judge → Bool × Judge
  | .overall c =>
    let (wanted, c) := c.offer length
    (wanted, .overall c)
  | .perPair cs =>
    let (wanted, c) := ((cs.get? ends).getD fresh).offer length
    (wanted, .perPair (cs.insert ends c))

def endLength (length : Nat) : Judge → Judge
  | .overall c => .overall (c.endLength length)
  | .perPair cs => .perPair (cs.map fun p => (p.1, p.2.endLength length))

/-- Whether no candidate at all is wanted any more. -/
def isDone : Judge → Bool
  | .overall c => c.terminated
  | .perPair _ => false

/-- Whether no candidate is wanted any more for any of the given number of pairs. -/
def isDoneForAll (pairs : Nat) : Judge → Bool
  | .overall _ => false
  | .perPair cs => !cs.isEmpty && cs.all (·.2.terminated) && pairs ≤ cs.length

end Judge

/-! ## The agenda -/

/-- Something still to be tried. -/
inductive Choice where
  /-- A thread to go on with. -/
  | resume (t : Thread)
  /-- A thread that waits for an edge, with the edges it has not tried and the room after them. -/
  | extend (t : Thread) (pattern : EdgePattern) (grouped : Bool) (room : Nat)
      (candidates : List (EdgeId × VertexId))

namespace Choice

/-- What trying a choice uses up: room for edges first, then instructions, then candidates. -/
def rank : Choice → Nat × Nat × Nat
  | .resume t => (t.room, t.slack + 1, 0)
  | .extend _ _ _ room candidates => (room + 1, 0, candidates.length)

def Smaller (a b : Choice) : Prop :=
  Prod.Lex (· < ·) (Prod.Lex (· < ·) (· < ·)) a.rank b.rank

theorem smaller_wf : WellFounded Smaller :=
  InvImage.wf rank
    (Prod.lex Nat.lt_wfRel (Prod.lex Nat.lt_wfRel Nat.lt_wfRel)).wf

end Choice

/-- A search that is going on. -/
structure Search where
  program : Program
  /-- What was bound by the path patterns before this one. -/
  base : Bindings
  /-- The start vertices that have not been tried in this round. -/
  starts : List VertexId
  agenda : List Choice
  /-- The most edges that a path of this round may have. -/
  limit : Nat
  /-- How many longer rounds there may be. -/
  deeper : Nat
  /-- Whether a thread of this round wanted an edge beyond the limit. -/
  blocked : Bool
  judge : Judge
  /-- Whether no more solutions are wanted. -/
  finished : Bool

/-- What a step of a search leads to. -/
inductive Progress where
  | exhausted
  | goesOn (s : Search)
  | found (solution : Solution) (s : Search)

/-- The search that a step leads to, if it leads to one. -/
def Progress.search? : Progress → Option Search
  | .exhausted => none
  | .goesOn s => some s
  | .found _ s => some s

/-- The vertices that a match of a program can start at, in the order in which they are tried. -/
def startVertices (env : Env) (program : Program) (base : Bindings) : List VertexId :=
  match program.leadingNode? with
  | none => env.store.vertices
  | some node =>
    match node.name.bind fun name => (base.get? name).or (env.seed.get? name) with
    | some b => b.asVertex?.toList.filter env.store.contains
    | none =>
      match node.label with
      | some (.name label) => env.store.withLabel label
      | _ => env.store.vertices

namespace Search

/-- Whether a round takes paths of its greatest length only. -/
def exact (s : Search) : Bool := s.program.selector.isShortest

/-- The choice before anything has been offered. -/
def fresh (env : Env) (p : Program) : Controller := .start p.selector env.config.shortestTies

/-- A search at its beginning. Shortest paths are searched for from the least length on that a match
can have; if that is beyond the greatest length allowed, there is nothing to search. -/
def begin (env : Env) (tally : Tally) (p : Program) (base : Bindings) : Tally × Search :=
  let cap := env.config.maxPathLength
  let exact := p.selector.isShortest
  let tooLong := exact && cap < p.minLength
  let none := (fresh env p).terminated
  let limit := if exact then min p.minLength cap else cap
  (if tooLong && !none then tally.cutOff else tally,
    { program := p
      base := base
      starts := startVertices env p base
      agenda := []
      limit := limit
      deeper := if exact then cap - limit else 0
      blocked := false
      judge := .start env.config.searchScope (fresh env p)
      finished := none || tooLong })

/-- The bindings of a match with all its groups; a group that was never reached is empty. A group that
was bound before the match has to be the same. -/
def closeGroups? (env : Env) (p : Program) (bindings : Bindings) : Option Bindings :=
  let all := p.groupVariables.foldl (fun m v => m.insertNew v.1 (.group [])) bindings
  let agrees := p.groupVariables.all fun v =>
    match env.seed.get? v.1 with
    | some seeded => all.get? v.1 == some seeded
    | none => true
  if agrees then some all else none

/-- The solution of a thread at the end of its program. -/
def solution? (env : Env) (p : Program) (t : Thread) : Option Solution := do
  let bindings ← closeGroups? env p t.bindings
  let path := t.walk.toPath
  match p.name with
  | some name => return ⟨← bindings.bindPath? env.seed name path, path⟩
  | none => return ⟨bindings, path⟩

/-- Offers the match of a thread at the end of its program. In a round of one length, shorter paths
were found by an earlier round. -/
def accept (env : Env) (tally : Tally) (s : Search) (t : Thread) (rest : List Choice) :
    Tally × Progress :=
  let s := { s with agenda := rest }
  if s.exact && t.room != 0 then (tally, .goesOn s)
  else
    match solution? env s.program t with
    | none => (tally.pruned, .goesOn s)
    | some solution =>
      let ends := (t.walk.start, t.walk.current)
      let (wanted, judge) := s.judge.offer (fresh env s.program) ends t.walk.length
      if wanted then (tally, .found solution { s with judge := judge, finished := judge.isDone })
      else (tally, .goesOn { s with judge := judge })

/-- Runs one instruction of a thread. -/
def resume (env : Env) (tally : Tally) (s : Search) (t : Thread) (rest : List Choice) :
    Tally × Progress :=
  match t.slack, s.program.code[t.pc]? with
  | slack + 1, some i =>
    match { t with slack := slack }.execute env i with
    | .threads ts => (tally, .goesOn { s with agenda := ts.map .resume ++ rest })
    | .pruned => (tally.pruned, .goesOn { s with agenda := rest })
    | .blocked => (tally.pruned, .goesOn { s with agenda := rest, blocked := true })
    | .wantsEdge t pattern grouped room =>
      let candidates := env.store.neighbors t.walk.current pattern.direction
      (tally, .goesOn { s with agenda := .extend t pattern grouped room candidates :: rest })
    | .accepted t => s.accept env tally t rest
  | _, _ => (tally, .goesOn { s with agenda := rest })

/-- Tries the next edge of a thread that waits for one. -/
def expand (env : Env) (tally : Tally) (s : Search) (t : Thread) (pattern : EdgePattern)
    (grouped : Bool) (room : Nat) (edge : EdgeId × VertexId)
    (candidates : List (EdgeId × VertexId)) (rest : List Choice) : Tally × Progress :=
  if tally.isSpent env.config then (tally.cutOff, .exhausted)
  else
    let tally := tally.expanded
    let left := Choice.extend t pattern grouped room candidates :: rest
    let taken := t.takenBy? pattern.filler.name
    if t.admitsStep s.program.mode edge.1 edge.2 &&
        pattern.filler.admits env t.bindings grouped taken (.edge edge.1) then
      let next := t.cross pattern grouped edge.1 edge.2 room s.program.idle
      (tally, .goesOn { s with agenda := .resume next :: left })
    else (tally.pruned, .goesOn { s with agenda := left })

/-- Goes on to longer paths, if the search is one for shortest paths and there is reason to. -/
def nextRound (env : Env) (tally : Tally) (s : Search) : Tally × Progress :=
  if !s.exact then (if s.blocked then tally.cutOff else tally, .exhausted)
  else
    let judge := s.judge.endLength s.limit
    let starts := startVertices env s.program s.base
    let pairs := starts.length * env.store.vertices.length
    if judge.isDone || judge.isDoneForAll pairs || !s.blocked then (tally, .exhausted)
    else
      match s.deeper with
      | 0 => (tally.cutOff, .exhausted)
      | deeper + 1 =>
        (tally, .goesOn { s with
          starts := starts
          limit := s.limit + 1
          deeper := deeper
          blocked := false
          judge := judge })

/-- One step: what lies on the agenda, or the next start vertex, or the next round. -/
def step (env : Env) (tally : Tally) (s : Search) : Tally × Progress :=
  if s.finished then (tally, .exhausted)
  else
    match s.agenda with
    | .resume t :: rest => s.resume env tally t rest
    | .extend t pattern grouped room (edge :: candidates) :: rest =>
      s.expand env tally t pattern grouped room edge candidates rest
    | .extend _ _ _ _ [] :: rest => (tally, .goesOn { s with agenda := rest })
    | [] =>
      match s.starts with
      | v :: starts =>
        (tally.triedStart, .goesOn { s with
          starts := starts
          agenda := [.resume (.start v s.base s.limit s.program.idle)] })
      | [] => s.nextRound env tally

/-! ## Every step makes a search smaller -/

/-- What is left of a search: longer rounds, then start vertices, then the agenda. -/
def Smaller (a b : Search) : Prop :=
  Prod.Lex (· < ·) (Prod.Lex (· < ·) (Replaces Choice.Smaller))
    (a.deeper, a.starts.length, a.agenda) (b.deeper, b.starts.length, b.agenda)

theorem smaller_wf : WellFounded Smaller :=
  InvImage.wf (fun s : Search => (s.deeper, s.starts.length, s.agenda))
    (Prod.lex Nat.lt_wfRel
      (Prod.lex Nat.lt_wfRel ⟨_, Replaces.wellFounded Choice.smaller_wf⟩)).wf

theorem smaller_of_agenda {a b : Search} (hd : a.deeper = b.deeper) (hs : a.starts = b.starts)
    (h : Replaces Choice.Smaller a.agenda b.agenda) : Smaller a b := by
  unfold Smaller
  rw [hd, hs]
  exact .right _ (.right _ h)

theorem accept_smaller {env : Env} {tally : Tally} {s u : Search} {t : Thread}
    {rest : List Choice} (hr : Replaces Choice.Smaller rest s.agenda)
    (h : (s.accept env tally t rest).2.search? = some u) : Smaller u s := by
  have key : u.deeper = s.deeper ∧ u.starts = s.starts ∧ u.agenda = rest := by
    unfold accept at h
    dsimp only at h
    split at h
    · cases h; exact ⟨rfl, rfl, rfl⟩
    · split at h
      · cases h; exact ⟨rfl, rfl, rfl⟩
      · split at h <;> cases h <;> exact ⟨rfl, rfl, rfl⟩
  exact smaller_of_agenda key.1 key.2.1 (key.2.2 ▸ hr)

theorem resume_smaller {env : Env} {tally : Tally} {s u : Search} {t : Thread}
    {rest : List Choice} (ha : s.agenda = .resume t :: rest)
    (h : (s.resume env tally t rest).2.search? = some u) : Smaller u s := by
  have hpop : Replaces Choice.Smaller rest s.agenda := ha ▸ .pop _ _
  unfold resume at h
  split at h
  · next slack i hslack hcode =>
    split at h
    · next ts he =>
      cases h
      refine smaller_of_agenda rfl rfl (ha ▸ .intro _ fun c hc => ?_)
      obtain ⟨v, hv, rfl⟩ := List.mem_map.mp hc
      obtain ⟨hroom, hs, -⟩ := Thread.execute_bounded he hv
      simp only at hroom hs
      simp only [Choice.Smaller, Choice.rank, hroom, hs, hslack]
      exact .right _ (.left _ _ (by omega))
    · cases h; exact smaller_of_agenda rfl rfl hpop
    · cases h; exact smaller_of_agenda rfl rfl hpop
    · next v p g room he =>
      obtain ⟨_, hroom, _⟩ := Thread.execute_wantsEdge he
      simp only at hroom
      cases h
      refine smaller_of_agenda rfl rfl (ha ▸ .swap _ ?_)
      simp only [Choice.Smaller, Choice.rank, hroom]
      exact .right _ (.left _ _ (by omega))
    · exact accept_smaller hpop h
  · cases h; exact smaller_of_agenda rfl rfl hpop

theorem expand_smaller {env : Env} {tally : Tally} {s u : Search} {t : Thread} {p : EdgePattern}
    {g : Bool} {room : Nat} {edge : EdgeId × VertexId} {candidates : List (EdgeId × VertexId)}
    {rest : List Choice} (ha : s.agenda = .extend t p g room (edge :: candidates) :: rest)
    (h : (s.expand env tally t p g room edge candidates rest).2.search? = some u) :
    Smaller u s := by
  have left : Choice.Smaller (.extend t p g room candidates)
      (.extend t p g room (edge :: candidates)) :=
    .right _ (.right _ (by simp))
  unfold expand at h
  dsimp only at h
  split at h
  · cases h
  · split at h
    · cases h
      refine smaller_of_agenda rfl rfl (ha ▸ .grow _ ?_ left)
      simp only [Choice.Smaller, Choice.rank, Thread.room_cross]
      exact .left _ _ (by omega)
    · cases h
      exact smaller_of_agenda rfl rfl (ha ▸ .swap _ left)

theorem nextRound_smaller {env : Env} {tally : Tally} {s u : Search}
    (h : (s.nextRound env tally).2.search? = some u) : Smaller u s := by
  unfold nextRound at h
  dsimp only at h
  split at h
  · cases h
  · split at h
    · cases h
    · split at h
      · cases h
      · next deeper hd =>
        cases h
        exact .left _ _ (by simp [hd])

theorem step_smaller {env : Env} {tally : Tally} {s u : Search}
    (h : (s.step env tally).2.search? = some u) : Smaller u s := by
  unfold step at h
  split at h
  · cases h
  · split at h
    · next ha => exact resume_smaller ha h
    · next ha => exact expand_smaller ha h
    · next ha => cases h; exact smaller_of_agenda rfl rfl (ha ▸ .pop _ _)
    · split at h
      · next hs =>
        cases h
        exact .right _ (.left _ _ (by simp [hs]))
      · exact nextRound_smaller h

instance : WellFoundedRelation Search := ⟨Smaller, smaller_wf⟩

/-! ## Solutions -/

/-- Goes on to the next solution, or to the end. -/
def next (env : Env) (tally : Tally) (s : Search) : Tally × Option (Solution × Search) :=
  match h : s.step env tally with
  | (tally, .exhausted) => (tally, none)
  | (tally, .found solution u) => (tally, some (solution, u))
  | (tally, .goesOn u) =>
    have : Smaller u s := step_smaller (by rw [h]; rfl)
    next env tally u
termination_by s
decreasing_by assumption

/-- What is left after a solution is smaller than what was there before. -/
theorem next_smaller {env : Env} {tally : Tally} {s u : Search} {solution : Solution}
    (h : (s.next env tally).2 = some (solution, u)) : Relation.TransGen Smaller u s := by
  fun_induction next env tally s with
  | case1 => cases h
  | case2 tally s tally' v w hs =>
    cases h
    exact .single (step_smaller (by rw [hs]; rfl))
  | case3 tally s tally' v _ hsmaller ih => exact (ih h).tail hsmaller

end Search

end GraphPatterns
