/-
A join as a nested loop. The stack of open searches of a join finds what a loop over the solutions of
the first path pattern finds, with a loop over those of the second one inside, and so on
(`Join.collect_eq`). `Join.isCut` says the same of the flag for results that may have been cut off.
-/
import GraphPatterns.Matching.Join
import GraphPatterns.Proofs.Solutions

namespace GraphPatterns

namespace Join

/-- The matches of some path patterns that go on from what other path patterns have bound. -/
def results (j : Join) : List Program → Bindings → List Path → List Match
  | [], bindings, paths =>
    if j.admits bindings paths then [⟨combine j.env.seed bindings, paths⟩] else []
  | p :: later, bindings, paths =>
    (p.solutions j.env bindings).flatMap fun x => j.results later x.bindings (paths ++ [x.path])

/-- The combinations of solutions of some path patterns, whether they are matches or not: what is
bound after the last one, and the paths. -/
def combinations (env : Env) : List Program → Bindings → List Path → List Match
  | [], bindings, paths => [⟨bindings, paths⟩]
  | p :: later, bindings, paths =>
    (p.solutions env bindings).flatMap fun x => combinations env later x.bindings (paths ++ [x.path])

theorem combinations_append (env : Env) (ps qs : List Program) (bindings : Bindings) (paths : List Path) :
    combinations env (ps ++ qs) bindings paths =
      (combinations env ps bindings paths).flatMap fun m => combinations env qs m.bindings m.paths := by
  induction ps generalizing bindings paths with
  | nil => simp [combinations]
  | cons p ps ih =>
    rw [List.cons_append, combinations, combinations, List.flatMap_assoc]
    exact List.flatMap_congr fun x _ => ih x.bindings (paths ++ [x.path])

theorem results_eq (j : Join) (ps : List Program) (bindings : Bindings) (paths : List Path) :
    j.results ps bindings paths =
      ((combinations j.env ps bindings paths).filter fun m => j.admits m.bindings m.paths).map fun m =>
        ⟨combine j.env.seed m.bindings, m.paths⟩ := by
  induction ps generalizing bindings paths with
  | nil =>
    rw [results, combinations, List.filter_singleton]
    cases j.admits bindings paths <;> rfl
  | cons p ps ih =>
    rw [results, combinations, List.filter_flatMap, List.map_flatMap]
    exact List.flatMap_congr fun x _ => ih x.bindings (paths ++ [x.path])

/-- Whether one of the searches of the nested loop may have cut off solutions. -/
def isCut (j : Join) : List Program → Bindings → Bool
  | [], _ => false
  | p :: later, bindings =>
    p.isCut j.env bindings || (p.solutions j.env bindings).any fun x => j.isCut later x.bindings

end Join

namespace Level

/-- The matches that are still to come from an open search. -/
def results (j : Join) (l : Level) : List Match :=
  (l.search.rest j.env).1.flatMap fun x => j.results l.later x.bindings (l.before ++ [x.path])

/-- Whether an open search, or one inside it, may still cut off solutions. -/
def isCut (j : Join) (l : Level) : Bool :=
  (l.search.rest j.env).2 || (l.search.rest j.env).1.any fun x => j.isCut l.later x.bindings

end Level

namespace Cursor

/-- The matches that are still to come. -/
def results (j : Join) (c : Cursor) : List Match := c.levels.flatMap (·.results j)

/-- The flag at the end. -/
def isCut (j : Join) (c : Cursor) : Bool := c.tally.truncated || c.levels.any (·.isCut j)

end Cursor

namespace Join

/-- A step of a join takes the first of the matches that are still to come, or takes none. -/
theorem step_results {j : Join} (hmax : j.env.config.maxSteps = none) (c : Cursor) :
    match j.step c with
    | .exhausted => c.levels = []
    | .yields m d => c.results j = m :: d.results j ∧ c.isCut j = d.isCut j
    | .goesOn d => c.results j = d.results j ∧ c.isCut j = d.isCut j := by
  have hspent : c.tally.isSpent j.env.config = false := by simp [Tally.isSpent, hmax]
  obtain ⟨levels, tally⟩ := c
  simp only at hspent
  cases levels with
  | nil => simp [step, hspent]
  | cons l outer =>
    obtain ⟨search, later, before⟩ := l
    have hnext := search.next_rest tally hmax
    simp only [step, hspent, Bool.and_false, Bool.false_eq_true, if_false]
    cases hn : search.next j.env tally with
    | mk tally' found =>
      cases found with
      | none =>
        rw [hn] at hnext
        obtain ⟨hnone, hflag⟩ := hnext
        simp only [Cursor.results, Cursor.isCut, List.flatMap_cons, List.any_cons]
        refine ⟨?_, ?_⟩
        · simp [Level.results, hnone]
        · rw [hflag, Level.isCut, hnone]
          simp [Bool.or_assoc]
      | some next =>
        obtain ⟨x, left⟩ := next
        rw [hn] at hnext
        obtain ⟨hsome, hflag⟩ := hnext
        cases later with
        | cons p later =>
          obtain ⟨hbegin, hcut⟩ := p.begin_tally j.env x.bindings tally'
          simp only [Cursor.results, Cursor.isCut, List.flatMap_cons, List.any_cons, hcut, hbegin]
          simp only [Level.results, Level.isCut, hsome, hflag, results, isCut, Program.solutions,
            Program.isCut, List.flatMap_cons, List.any_cons]
          refine ⟨by simp, ?_⟩
          ac_rfl
        | nil =>
          have hcut : Cursor.isCut j ⟨⟨search, [], before⟩ :: outer, tally⟩ =
              Cursor.isCut j ⟨⟨left, [], before⟩ :: outer, tally'⟩ := by
            simp [Cursor.isCut, Level.isCut, hsome, hflag, isCut]
          have hresults : Cursor.results j ⟨⟨search, [], before⟩ :: outer, tally⟩ =
              j.results [] x.bindings (before ++ [x.path]) ++
                Cursor.results j ⟨⟨left, [], before⟩ :: outer, tally'⟩ := by
            simp [Cursor.results, Level.results, hsome]
          rw [hcut, hresults, results]
          by_cases hadmits : j.admits x.bindings (before ++ [x.path]) = true
          · simp only [hadmits, if_true]
            exact ⟨rfl, rfl⟩
          · simp only [hadmits, if_false, Bool.false_eq_true]
            exact ⟨rfl, rfl⟩

/-- **A join is a nested loop.** -/
theorem collect_eq {j : Join} (hmax : j.env.config.maxSteps = none) (found : Array Match)
    (c : Cursor) :
    (j.collect found c).1 = found.toList ++ c.results j ∧
      (j.collect found c).2.tally.truncated = c.isCut j := by
  fun_induction collect j found c with
  | case1 found c hs =>
    have hstep := step_results hmax c
    rw [hs] at hstep
    simp [Cursor.results, Cursor.isCut, show c.levels = [] from hstep]
  | case2 found c m d hs _ ih =>
    have hstep := step_results hmax c
    rw [hs] at hstep
    obtain ⟨hresults, hcut⟩ := hstep
    rw [ih.1, ih.2, hresults, hcut]
    simp
  | case3 found c d hs _ ih =>
    have hstep := step_results hmax c
    rw [hs] at hstep
    obtain ⟨hresults, hcut⟩ := hstep
    rw [ih.1, ih.2, hresults, hcut]
    exact ⟨rfl, rfl⟩

/-- All matches of some path patterns. Without path patterns there are none. -/
def all (j : Join) (programs : List Program) : List Match :=
  if programs.isEmpty then [] else j.results programs [] []

theorem collect_begin {j : Join} (hmax : j.env.config.maxSteps = none) (programs : List Program) :
    (j.collect #[] (j.begin programs)).1 = j.all programs ∧
      (j.collect #[] (j.begin programs)).2.tally.truncated = j.isCut programs [] := by
  obtain ⟨hresults, hcut⟩ := collect_eq hmax #[] (j.begin programs)
  rw [hresults, hcut]
  cases programs with
  | nil => exact ⟨rfl, rfl⟩
  | cons p later =>
    constructor
    · simp [begin, Cursor.results, Level.results, all, results, Program.solutions]
    · simp [begin, Cursor.isCut, Level.isCut, isCut, Program.isCut, Program.solutions, Bool.or_assoc]

end Join

/-- The join of a pattern. -/
def GraphPattern.join (g : GraphPattern) (env : Env) : Join :=
  ⟨env, g.condition, g.mode == some .differentEdges⟩

theorem GraphPattern.matches_eq (g : GraphPattern) (env : Env) (hmax : env.config.maxSteps = none) :
    (g.matches env).map (fun r => (r.1, r.2.truncated)) =
      (g.validate env.store env.config.strictCatalog env.seed.kinds).map fun _ =>
        ((g.join env).all (g.paths.map .compile), (g.join env).isCut (g.paths.map .compile) []) := by
  unfold GraphPattern.matches search
  cases g.validate env.store env.config.strictCatalog env.seed.kinds with
  | error e => rfl
  | ok kinds =>
    obtain ⟨hall, hcut⟩ := Join.collect_begin (j := g.join env) hmax (g.paths.map .compile)
    exact congrArg Except.ok (Prod.ext hall hcut)

theorem GraphPattern.matches_all (g : GraphPattern) (env : Env) (hmax : env.config.maxSteps = none) :
    (g.matches env).map (·.1) =
      (g.validate env.store env.config.strictCatalog env.seed.kinds).map fun _ =>
        (g.join env).all (g.paths.map .compile) := by
  have heq := congrArg (Except.map Prod.fst) (g.matches_eq env hmax)
  cases hm : g.matches env <;>
    cases hv : g.validate env.store env.config.strictCatalog env.seed.kinds <;>
    simp only [hm, hv] at heq ⊢ <;> exact heq

end GraphPatterns
