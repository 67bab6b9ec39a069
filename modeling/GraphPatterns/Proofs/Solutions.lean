/-
All solutions of a search without a step cap. Without a cap what a search does never depends on the
tally (`Search.step_tally`), so `Search.rest` leaves it out and keeps the solutions and whether some may
have been cut off. A round offers its candidates to the judge one after the other (`Judge.sift`), and
the rounds of a search for shortest paths are a recursion on how many longer ones there may be
(`Program.rounds`): the agenda and the steps are gone.
-/
import GraphPatterns.Proofs.Round
import Mathlib.Data.List.Induction
import Mathlib.Tactic.Set

namespace GraphPatterns

/-! ## Paths of walks -/

/-- The first and the last vertex. -/
def Path.ends (p : Path) : VertexId × VertexId := (p.start?.getD default, p.end?.getD default)

@[simp] theorem Walk.length_toPath (w : Walk) : w.toPath.length = w.length := by
  simp [Path.length, toPath, edges, length]

theorem Walk.end?_toPath (w : Walk) : w.toPath.end? = some w.current := by
  obtain ⟨v, steps⟩ := w
  induction steps using List.reverseRecOn with
  | nil => rfl
  | append_singleton steps step _ =>
    have hv : (toPath ⟨v, steps ++ [step]⟩).vertices = (v :: steps.map (·.2)) ++ [step.2] := by
      simp [toPath, vertices]
    rw [Path.end?, hv, List.getLast?_concat]
    simp [current]

@[simp] theorem Walk.ends_toPath (w : Walk) : w.toPath.ends = (w.start, w.current) := by
  rw [Path.ends, end?_toPath]
  rfl

namespace Search

/-! ## Steps without a tally -/

/-- Two outcomes of a step that differ in nothing but the tally they started with, of which one started
with an empty one. The flag of a tally is set only where the search ends. -/
structure SameProgress (tally : Tally) (a b : Tally × Progress) : Prop where
  progress : a.2 = b.2
  truncated : a.1.truncated = (tally.truncated || b.1.truncated)
  goesOn : b.2 ≠ .exhausted → b.1.truncated = false

theorem accept_tally {env : Env} (tally : Tally) (s : Search) (t : Thread) (left : List Choice) :
    SameProgress tally (s.accept env tally t left) (s.accept env {} t left) := by
  unfold accept
  dsimp only
  split
  · exact ⟨rfl, by simp, fun _ => rfl⟩
  · split
    · exact ⟨rfl, by simp [Tally.pruned], fun _ => rfl⟩
    · split <;> exact ⟨rfl, by simp, fun _ => rfl⟩

theorem resume_tally {env : Env} (tally : Tally) (s : Search) (t : Thread) (left : List Choice) :
    SameProgress tally (s.resume env tally t left) (s.resume env {} t left) := by
  unfold resume
  split
  · split
    · exact ⟨rfl, by simp, fun _ => rfl⟩
    · exact ⟨rfl, by simp [Tally.pruned], fun _ => rfl⟩
    · exact ⟨rfl, by simp [Tally.pruned], fun _ => rfl⟩
    · exact ⟨rfl, by simp, fun _ => rfl⟩
    · exact accept_tally ..
  · exact ⟨rfl, by simp, fun _ => rfl⟩

theorem expand_tally {env : Env} (tally : Tally) (s : Search) (t : Thread) (pattern : EdgePattern)
    (grouped : Bool) (room : Nat) (edge : EdgeId × VertexId) (candidates : List (EdgeId × VertexId))
    (left : List Choice) (hmax : env.config.maxSteps = none) :
    SameProgress tally (s.expand env tally t pattern grouped room edge candidates left)
      (s.expand env {} t pattern grouped room edge candidates left) := by
  have hspent (tally : Tally) : tally.isSpent env.config = false := by simp [Tally.isSpent, hmax]
  unfold expand
  simp only [hspent, Bool.false_eq_true, if_false]
  split
  · exact ⟨rfl, by simp [Tally.expanded], fun _ => rfl⟩
  · exact ⟨rfl, by simp [Tally.expanded, Tally.pruned], fun _ => rfl⟩

theorem nextRound_tally {env : Env} (tally : Tally) (s : Search) :
    SameProgress tally (s.nextRound env tally) (s.nextRound env {}) := by
  unfold nextRound
  dsimp only
  split
  · split <;> exact ⟨rfl, by simp [Tally.cutOff], fun h => absurd rfl h⟩
  · split
    · exact ⟨rfl, by simp, fun h => absurd rfl h⟩
    · split
      · exact ⟨rfl, by simp [Tally.cutOff], fun h => absurd rfl h⟩
      · exact ⟨rfl, by simp, fun _ => rfl⟩

theorem step_tally {env : Env} (tally : Tally) (s : Search) (hmax : env.config.maxSteps = none) :
    SameProgress tally (s.step env tally) (s.step env {}) := by
  unfold step
  split
  · exact ⟨rfl, by simp, fun h => absurd rfl h⟩
  · split
    · exact resume_tally ..
    · exact expand_tally _ _ _ _ _ _ _ _ _ hmax
    · exact ⟨rfl, by simp, fun _ => rfl⟩
    · split
      · exact ⟨rfl, by simp [Tally.triedStart], fun _ => rfl⟩
      · exact nextRound_tally ..

/-- All further solutions of a search, and whether it may have cut off others. -/
def rest (env : Env) (s : Search) : List Solution × Bool :=
  match h : s.step env {} with
  | (tally, .exhausted) => ([], tally.truncated)
  | (_, .found x u) =>
    have : Smaller u s := step_smaller (by rw [h]; rfl)
    let later := rest env u
    (x :: later.1, later.2)
  | (_, .goesOn u) =>
    have : Smaller u s := step_smaller (by rw [h]; rfl)
    rest env u
termination_by s
decreasing_by all_goals assumption

theorem rest_exhausted {env : Env} {s : Search} (h : (s.step env {}).2 = .exhausted) :
    s.rest env = ([], (s.step env {}).1.truncated) := by
  rw [rest]
  split
  · next hs => simp [hs]
  · next hs => rw [hs] at h; cases h
  · next hs => rw [hs] at h; cases h

theorem rest_found {env : Env} {s u : Search} {x : Solution} (h : (s.step env {}).2 = .found x u) :
    s.rest env = (x :: (u.rest env).1, (u.rest env).2) := by
  rw [rest]
  split
  · next hs => rw [hs] at h; cases h
  · next hs => rw [hs] at h; cases h; rfl
  · next hs => rw [hs] at h; cases h

theorem rest_goesOn {env : Env} {s u : Search} (h : (s.step env {}).2 = .goesOn u) :
    s.rest env = u.rest env := by
  rw [rest]
  split
  · next hs => rw [hs] at h; cases h
  · next hs => rw [hs] at h; cases h
  · next hs => rw [hs] at h; cases h; rfl

theorem next_rest {env : Env} (tally : Tally) (s : Search) (hmax : env.config.maxSteps = none) :
    match s.next env tally with
    | (tally', none) =>
      (s.rest env).1 = [] ∧ tally'.truncated = (tally.truncated || (s.rest env).2)
    | (tally', some (x, u)) =>
      s.rest env = (x :: (u.rest env).1, (u.rest env).2) ∧ tally'.truncated = tally.truncated := by
  fun_induction next env tally s with
  | case1 tally s tally' hs =>
    obtain ⟨hp, ht, -⟩ := step_tally tally s hmax
    rw [hs] at hp ht
    rw [rest_exhausted hp.symm]
    exact ⟨rfl, ht⟩
  | case2 tally s tally' x u hs =>
    obtain ⟨hp, ht, hg⟩ := step_tally tally s hmax
    rw [hs] at hp ht
    rw [hg (by simp [← hp]), Bool.or_false] at ht
    exact ⟨rest_found hp.symm, ht⟩
  | case3 tally s tally' u hs _ ih =>
    obtain ⟨hp, ht, hg⟩ := step_tally tally s hmax
    rw [hs] at hp ht
    rw [hg (by simp [← hp]), Bool.or_false] at ht
    simp only at ht
    rw [rest_goesOn hp.symm, ← ht]
    exact ih

end Search

/-! ## Rounds -/

namespace Judge

/-- Offers candidates in turn: those that are wanted, and the choice after them. -/
def sift (fresh : Controller) (judge : Judge) : List Solution → List Solution × Judge
  | [] => ([], judge)
  | x :: xs =>
    let answer := judge.offer fresh x.path.ends x.path.length
    let later := answer.2.sift fresh xs
    (if answer.1 then x :: later.1 else later.1, later.2)

theorem offer_of_isDone {judge : Judge} (h : judge.isDone = true) (fresh : Controller)
    (ends : VertexId × VertexId) (length : Nat) : judge.offer fresh ends length = (false, judge) := by
  cases judge with
  | overall c =>
    have hc : c.terminated = true := h
    simp [offer, Controller.offer, hc]
  | perPair cs => cases h

theorem sift_of_isDone {judge : Judge} (h : judge.isDone = true) (fresh : Controller)
    (xs : List Solution) : judge.sift fresh xs = ([], judge) := by
  induction xs with
  | nil => rfl
  | cons x xs ih => simp [sift, offer_of_isDone h, ih]

theorem NeverEnds.sift {judge : Judge} (h : judge.NeverEnds) (fresh : Controller)
    (xs : List Solution) : (judge.sift fresh xs).2.NeverEnds := by
  induction xs generalizing judge with
  | nil => exact h
  | cons x xs ih => exact ih (h.offer ..)

theorem endLength_of_isDone {judge : Judge} (h : judge.isDone = true) (length : Nat) :
    judge.endLength length = judge := by
  cases judge with
  | overall c =>
    have hc : c.terminated = true := h
    simp [endLength, Controller.endLength, hc]
  | perPair cs => cases h

end Judge

/-- Whether a thread was blocked. -/
def Outcome.anyBlocked (os : List Outcome) : Bool := os.any (·.thread?.isNone)

theorem Outcome.anyBlocked_iff {os : List Outcome} : anyBlocked os = true ↔ .blocked ∈ os := by
  rw [anyBlocked, List.any_eq_true]
  constructor
  · rintro ⟨o, ho, hn⟩
    cases o with
    | arrives t => cases hn
    | blocked => exact ho
  · exact fun h => ⟨_, h, rfl⟩

/-- What the arrivals among some outcomes offer, in order. -/
def Program.candidates (p : Program) (env : Env) (os : List Outcome) : List Solution :=
  (Outcome.arrivals os).filterMap (Search.candidate? env p)

namespace Search

theorem of_closeGroups? {env : Env} {p : Program} {bindings all : Bindings}
    (h : closeGroups? env p bindings = some all) :
    all = p.groupVariables.foldl (fun m v => m.insertNew v.1 (.group [])) bindings := by
  unfold closeGroups? at h
  dsimp only at h
  split at h
  · cases h
    rfl
  · cases h

/-- A solution binds what its thread has bound, with all groups closed, and perhaps the variable of the
path. -/
theorem of_solution? {env : Env} {p : Program} {t : Thread} {x : Solution}
    (h : solution? env p t = some x) : ∃ all, closeGroups? env p t.bindings = some all ∧
      (x = ⟨all, t.walk.toPath⟩ ∨ ∃ name later, p.name = some name ∧
        all.bindPath? env.seed name t.walk.toPath = some later ∧ x = ⟨later, t.walk.toPath⟩) := by
  unfold solution? at h
  obtain ⟨all, hclose, h⟩ := Option.bind_eq_some_iff.mp h
  refine ⟨all, hclose, ?_⟩
  split at h
  · next name hname =>
    obtain ⟨later, hbound, h⟩ := Option.bind_eq_some_iff.mp h
    cases h
    exact .inr ⟨name, later, hname, hbound, rfl⟩
  · cases h
    exact .inl rfl

theorem solution?_path {env : Env} {p : Program} {t : Thread} {x : Solution}
    (h : solution? env p t = some x) : x.path = t.walk.toPath := by
  obtain ⟨all, -, rfl | ⟨name, later, -, -, rfl⟩⟩ := of_solution? h <;> rfl

theorem candidate?_path {env : Env} {p : Program} {t : Thread} {x : Solution}
    (h : candidate? env p t = some x) : x.path = t.walk.toPath := by
  unfold candidate? at h
  split at h
  · cases h
  · exact solution?_path h

/-- The candidates of the rest of a round that are wanted, and the choice after them. -/
def sifted (env : Env) (s : Search) : List Solution × Judge :=
  s.judge.sift (fresh env s.program) (s.program.candidates env (s.pending env))

/-- The search at the end of a round, after all candidates have been offered. -/
def afterRound (env : Env) (s : Search) : Search :=
  { s with
    agenda := []
    starts := []
    judge := (s.sifted env).2
    blocked := s.blocked || Outcome.anyBlocked (s.pending env) }

/-- What is found from within a round on are the candidates of the round that are wanted, then what is
found after it. A search that wants no more ends at once, and does not see whether a later thread of the
round is blocked. -/
def FindsRound (env : Env) (s : Search) : Prop :=
  (s.rest env).1 = (s.sifted env).1 ++ ((s.afterRound env).rest env).1 ∧
    ((s.exact = true ∨ (s.sifted env).2.isDone = false) →
      (s.rest env).2 = ((s.afterRound env).rest env).2)

theorem candidates_arrives (p : Program) (env : Env) (t : Thread) (os : List Outcome) :
    p.candidates env (.arrives t :: os) =
      (candidate? env p t).toList ++ p.candidates env os := by
  simp only [Program.candidates, Outcome.arrivals_arrives, List.filterMap_cons]
  cases candidate? env p t <;> rfl

theorem rest_of_finished {env : Env} {s : Search} (h : s.finished = true) :
    s.rest env = ([], false) := by
  have hs : s.step env {} = ({}, .exhausted) := by simp [step, h]
  rw [rest_exhausted (by rw [hs]), hs]

theorem rest_of_isDone (env : Env) {s : Search} (ht : s.isThrough = true) (hj : s.judge.isDone = true) :
    (s.rest env).1 = [] ∧ (s.exact = true → (s.rest env).2 = false) := by
  cases hf : s.finished with
  | true => simp [rest_of_finished hf]
  | false =>
    obtain ⟨ha, hs⟩ := isThrough_iff.mp ht
    have hstep : s.step env {} = s.nextRound env {} := by simp [step, hf, ha, hs]
    have hnext : (s.nextRound env {}).2 = .exhausted := by
      unfold nextRound
      dsimp only
      split
      · rfl
      · rw [Judge.endLength_of_isDone hj, hj, Bool.true_or, Bool.true_or, if_pos rfl]
    rw [rest_exhausted (by rw [hstep, hnext])]
    refine ⟨rfl, fun he => ?_⟩
    rw [hstep]
    simp [nextRound, he, Judge.endLength_of_isDone hj, hj]

theorem FindsRound.of_goesOn {env : Env} {s u : Search} (hstep : (s.step env {}).2 = .goesOn u)
    (hprogram : u.program = s.program) (hsifted : u.sifted env = s.sifted env)
    (hafter : u.afterRound env = s.afterRound env) (h : u.FindsRound env) : s.FindsRound env := by
  unfold FindsRound exact at h ⊢
  rw [rest_goesOn hstep, ← hprogram, ← hsifted, ← hafter]
  exact h

theorem FindsRound.of_arrives {env : Env} {s : Search} {t : Thread} {left : List Choice}
    (hf : s.finished = false) (hstep : s.step env {} = s.accept env {} t left)
    (hpend : s.pending env = .arrives t :: Search.pending env { s with agenda := left })
    (ih : ∀ u, Smaller u s → u.finished = false → u.FindsRound env) : s.FindsRound env := by
  have hblocked : Outcome.anyBlocked (s.pending env) =
    Outcome.anyBlocked (Search.pending env { s with agenda := left }) := by rw [hpend]; rfl
  cases hx : candidate? env s.program t with
  | none =>
    obtain ⟨tally', he, -⟩ := accept_none {} left hx
    rw [← hstep] at he
    have hsifted : Search.sifted env { s with agenda := left } = s.sifted env := by
      rw [sifted, sifted, hpend, candidates_arrives, hx]
      rfl
    have hgo : (s.step env {}).2 = .goesOn { s with agenda := left } := congrArg Prod.snd he
    refine .of_goesOn hgo rfl hsifted ?_ (ih _ (step_smaller (by rw [hgo]; rfl)) hf)
    rw [afterRound, afterRound, hsifted, hblocked]
  | some x =>
    have hpath := candidate?_path hx
    have he := accept_some {} left hx
    rw [← hstep, ← Walk.ends_toPath, ← Walk.length_toPath, ← hpath] at he
    set answer := s.judge.offer (fresh env s.program) x.path.ends x.path.length with hanswer
    have hsifted : s.sifted env =
        let later := Search.sifted env { s with agenda := left, judge := answer.2 }
        (if answer.1 then x :: later.1 else later.1, later.2) := by
      rw [sifted, hpend, candidates_arrives, hx]
      rfl
    by_cases hw : answer.1 = true
    · simp only [hw, if_true] at he hsifted
      cases hd : answer.2.isDone with
      | false =>
        have hu : Smaller { s with agenda := left, judge := answer.2, finished := false } s :=
          step_smaller (by rw [he, hd]; rfl)
        obtain ⟨hfirst, hflag⟩ := ih _ hu rfl
        rw [FindsRound, rest_found (by rw [he]), afterRound, hsifted, hblocked, hd, hf]
        exact ⟨congrArg (x :: ·) hfirst, hflag⟩
      | true =>
        have hdone : Search.sifted env { s with agenda := left, judge := answer.2 } = ([], answer.2) :=
          Judge.sift_of_isDone hd _ _
        rw [hdone] at hsifted
        obtain ⟨hnone, hflag⟩ := rest_of_isDone env (s := s.afterRound env) rfl
          (by rw [afterRound, hsifted]; exact hd)
        rw [FindsRound, rest_found (by rw [he]), rest_of_finished hd, hsifted, hnone]
        refine ⟨rfl, fun h => (hflag (h.resolve_right ?_)).symm⟩
        simp [hd]
    · simp only [hw, if_false, Bool.false_eq_true] at he hsifted
      have hgo : (s.step env {}).2 = .goesOn { s with agenda := left, judge := answer.2 } :=
        congrArg Prod.snd he
      refine .of_goesOn hgo rfl hsifted.symm ?_ (ih _ (step_smaller (by rw [hgo]; rfl)) hf)
      rw [afterRound, afterRound, hsifted, hblocked]
      rfl

theorem findsRound {env : Env} (s : Search) (hmax : env.config.maxSteps = none)
    (hf : s.finished = false) : s.FindsRound env := by
  induction s using smaller_wf.induction with
  | _ s ih =>
    cases ht : s.isThrough with
    | true =>
      have hsifted : s.sifted env = ([], s.judge) := by
        rw [sifted, pending_of_isThrough ht]
        rfl
      have hafter : s.afterRound env = s := by
        obtain ⟨ha, hs⟩ := isThrough_iff.mp ht
        simp only [afterRound, hsifted, pending_of_isThrough ht, Outcome.anyBlocked, List.any_nil,
          Bool.or_false, ← ha, ← hs]
      rw [FindsRound, hafter, hsifted]
      exact ⟨rfl, fun _ => rfl⟩
    | false =>
      cases step_within {} hmax hf ht with
      | moves tally' left starts hstep _ _ hpend =>
        have hgo : (s.step env {}).2 = .goesOn { s with agenda := left, starts := starts } :=
          congrArg Prod.snd hstep
        refine .of_goesOn hgo rfl ?_ ?_ (ih _ (step_smaller (by rw [hgo]; rfl)) hf)
        · rw [sifted, sifted, hpend]
        · rw [afterRound, afterRound, sifted, sifted, hpend]
      | blocks left hstep _ hpend =>
        have hgo : (s.step env {}).2 = .goesOn { s with agenda := left, blocked := true } :=
          congrArg Prod.snd hstep
        have hblocked : Outcome.anyBlocked (s.pending env) = true :=
          Outcome.anyBlocked_iff.mpr (by simp [hpend])
        refine .of_goesOn hgo rfl ?_ ?_ (ih _ (step_smaller (by rw [hgo]; rfl)) hf)
        · rw [sifted, sifted, hpend]
          rfl
        · rw [afterRound, afterRound, sifted, sifted, hblocked, hpend, Bool.or_true]
          rfl
      | arrives t left hstep _ hpend => exact .of_arrives hf hstep hpend ih

end Search

/-! ## All rounds -/

namespace Program

/-- All outcomes of a round. -/
def outcomes (p : Program) (env : Env) (base : Bindings) (limit : Nat) : List Outcome :=
  (startVertices env p base).flatMap fun v =>
    (Choice.resume (.start v base limit p.idle)).outcomes env p

/-- What a round finds, and the choice after it. -/
def found (p : Program) (env : Env) (base : Bindings) (limit : Nat) (judge : Judge) :
    List Solution × Judge :=
  let sifted := judge.sift (Search.fresh env p) (p.candidates env (p.outcomes env base limit))
  (sifted.1, sifted.2.endLength limit)

/-- Whether there is reason to go on to longer paths after a round that ends with the given choice. -/
def wantsLonger (p : Program) (env : Env) (base : Bindings) (limit : Nat) (judge : Judge) : Bool :=
  !judge.isDone &&
    !judge.isDoneForAll ((startVertices env p base).length * env.store.vertices.length) &&
    Outcome.anyBlocked (p.outcomes env base limit)

/-- What the rounds of a search for shortest paths find, of which there may be `deeper` after the
first; and whether the search ends although there is reason to go on. -/
def rounds (p : Program) (env : Env) (base : Bindings) :
    (deeper limit : Nat) → Judge → List Solution × Bool
  | 0, limit, judge =>
    let found := p.found env base limit judge
    (found.1, p.wantsLonger env base limit found.2)
  | deeper + 1, limit, judge =>
    let found := p.found env base limit judge
    if p.wantsLonger env base limit found.2 then
      let later := rounds p env base deeper (limit + 1) found.2
      (found.1 ++ later.1, later.2)
    else (found.1, false)

end Program

namespace Search

theorem pending_atRound (env : Env) (p : Program) (base : Bindings) (limit deeper : Nat)
    (judge : Judge) : (atRound env p base limit deeper judge).pending env = p.outcomes env base limit :=
  rfl

theorem rest_atRound_plain {env : Env} {p : Program} (base : Bindings) (limit deeper : Nat)
    (judge : Judge) (hmax : env.config.maxSteps = none) (hp : p.selector.isShortest = false) :
    let found := judge.sift (fresh env p) (p.candidates env (p.outcomes env base limit))
    let rest := (atRound env p base limit deeper judge).rest env
    rest.1 = found.1 ∧
      (found.2.isDone = false → rest.2 = Outcome.anyBlocked (p.outcomes env base limit)) := by
  intro found rest
  set s := atRound env p base limit deeper judge with hs
  obtain ⟨hfound, hflag⟩ := findsRound s hmax rfl
  have hstep : (s.afterRound env).step env {} = (s.afterRound env).nextRound env {} := rfl
  have hnext : (s.afterRound env).nextRound env {} =
      (if (s.afterRound env).blocked then Tally.cutOff {} else {}, .exhausted) := by
    have he : (s.afterRound env).exact = false := hp
    simp [nextRound, he]
  have hrest : (s.afterRound env).rest env = ([], Outcome.anyBlocked (p.outcomes env base limit)) := by
    have hb : (s.afterRound env).blocked = Outcome.anyBlocked (p.outcomes env base limit) := rfl
    rw [rest_exhausted (by rw [hstep, hnext]), hstep, hnext, hb]
    cases Outcome.anyBlocked (p.outcomes env base limit) <;> rfl
  rw [hrest] at hfound hflag
  exact ⟨hfound.trans (List.append_nil _), fun h => hflag (.inr h)⟩

theorem nextRound_afterRound {env : Env} {p : Program} {base : Bindings} {limit deeper : Nat}
    {judge : Judge} (hp : p.selector.isShortest = true) :
    ((atRound env p base limit deeper judge).afterRound env).nextRound env {} =
      if p.wantsLonger env base limit (p.found env base limit judge).2 then
        match deeper with
        | 0 => (Tally.cutOff {}, .exhausted)
        | deeper + 1 =>
          ({}, .goesOn (atRound env p base (limit + 1) deeper (p.found env base limit judge).2))
      else ({}, .exhausted) := by
  have he : ((atRound env p base limit deeper judge).afterRound env).exact = true := hp
  have hstop : (!p.wantsLonger env base limit (p.found env base limit judge).2) =
      ((p.found env base limit judge).2.isDone ||
        (p.found env base limit judge).2.isDoneForAll
          ((startVertices env p base).length * env.store.vertices.length) ||
        !((atRound env p base limit deeper judge).afterRound env).blocked) := by
    have hb : ((atRound env p base limit deeper judge).afterRound env).blocked =
      Outcome.anyBlocked (p.outcomes env base limit) := rfl
    simp [Program.wantsLonger, hb]
  simp only [nextRound, he, Bool.not_true, Bool.false_eq_true, if_false]
  cases hw : p.wantsLonger env base limit (p.found env base limit judge).2 with
  | false =>
    rw [hw] at hstop
    exact if_pos hstop.symm
  | true =>
    rw [hw] at hstop
    refine (if_neg (Bool.not_eq_true _ ▸ hstop.symm)).trans ?_
    cases deeper <;> rfl

theorem rest_atRound_shortest {env : Env} {p : Program} {base : Bindings}
    (hmax : env.config.maxSteps = none) (hp : p.selector.isShortest = true) (deeper limit : Nat)
    (judge : Judge) :
    (atRound env p base limit deeper judge).rest env = p.rounds env base deeper limit judge := by
  induction deeper generalizing limit judge with
  | zero =>
    obtain ⟨hfound, hflag⟩ := findsRound (atRound env p base limit 0 judge) hmax rfl
    have hstep : ((atRound env p base limit 0 judge).afterRound env).step env {} = _ :=
      nextRound_afterRound hp
    have hrest : ((atRound env p base limit 0 judge).afterRound env).rest env =
        ([], p.wantsLonger env base limit (p.found env base limit judge).2) := by
      cases hw : p.wantsLonger env base limit (p.found env base limit judge).2 <;>
        rw [rest_exhausted (by simp [hstep, hw]), hstep, hw] <;> rfl
    rw [hrest] at hfound hflag
    exact Prod.ext (hfound.trans (List.append_nil _)) (hflag (.inl hp))
  | succ deeper ih =>
    obtain ⟨hfound, hflag⟩ := findsRound (atRound env p base limit (deeper + 1) judge) hmax rfl
    have hstep : ((atRound env p base limit (deeper + 1) judge).afterRound env).step env {} = _ :=
      nextRound_afterRound hp
    have hrest : ((atRound env p base limit (deeper + 1) judge).afterRound env).rest env =
        if p.wantsLonger env base limit (p.found env base limit judge).2 then
          p.rounds env base deeper (limit + 1) (p.found env base limit judge).2
        else ([], false) := by
      cases hw : p.wantsLonger env base limit (p.found env base limit judge).2 with
      | false =>
        rw [rest_exhausted (by simp [hstep, hw]), hstep, hw]
        rfl
      | true =>
        rw [rest_goesOn (u := atRound env p base (limit + 1) deeper (p.found env base limit judge).2)
          (by simp [hstep, hw]), ih]
        rfl
    rw [hrest] at hfound hflag
    rw [Program.rounds]
    split
    · next hw =>
      rw [if_pos hw] at hfound hflag
      exact Prod.ext hfound (hflag (.inl hp))
    · next hw =>
      rw [if_neg hw] at hfound hflag
      exact Prod.ext (hfound.trans (List.append_nil _)) (hflag (.inl hp))

end Search

/-! ## Whole searches -/

namespace Program

/-- All solutions of a path pattern. -/
def solutions (p : Program) (env : Env) (base : Bindings) : List Solution :=
  ((Search.begin env {} p base).2.rest env).1

/-- Whether the search for a path pattern may have cut off solutions. -/
def isCut (p : Program) (env : Env) (base : Bindings) : Bool :=
  (Search.begin env {} p base).1.truncated || ((Search.begin env {} p base).2.rest env).2

/-- The choice before the search. -/
def judge (p : Program) (env : Env) : Judge :=
  .start env.config.searchScope (Search.fresh env p)

theorem begin_tally (p : Program) (env : Env) (base : Bindings) (tally : Tally) :
    (Search.begin env tally p base).2 = (Search.begin env {} p base).2 ∧
      (Search.begin env tally p base).1.truncated =
        (tally.truncated || (Search.begin env {} p base).1.truncated) := by
  refine ⟨rfl, ?_⟩
  simp only [Search.begin]
  split <;> simp [Tally.cutOff]

variable (p : Program) (env : Env) (base : Bindings)

theorem solutions_of_terminated (h : (Search.fresh env p).terminated = true) :
    p.solutions env base = [] ∧ p.isCut env base = false := by
  have hf : (Search.begin env {} p base).2.finished = true := by simp [Search.begin, h]
  rw [solutions, isCut, Search.rest_of_finished hf]
  simp [Search.begin, h]

theorem solutions_plain (hmax : env.config.maxSteps = none) (hp : p.selector.isShortest = false)
    (ht : (Search.fresh env p).terminated = false) :
    let found := (p.judge env).sift (Search.fresh env p)
      (p.candidates env (p.outcomes env base env.config.maxPathLength))
    p.solutions env base = found.1 ∧
      (found.2.isDone = false →
        p.isCut env base = Outcome.anyBlocked (p.outcomes env base env.config.maxPathLength)) := by
  have hbegin : Search.begin env {} p base =
      ({}, .atRound env p base env.config.maxPathLength 0 (p.judge env)) := by
    simp [Search.begin, hp, ht, Search.atRound, judge]
  obtain ⟨hfound, hflag⟩ :=
    Search.rest_atRound_plain base env.config.maxPathLength 0 (p.judge env) hmax hp
  rw [solutions, isCut, hbegin]
  exact ⟨hfound, hflag⟩

theorem solutions_shortest (hmax : env.config.maxSteps = none) (hp : p.selector.isShortest = true)
    (ht : (Search.fresh env p).terminated = false) :
    (p.solutions env base, p.isCut env base) =
      if env.config.maxPathLength < p.minLength then ([], true)
      else p.rounds env base (env.config.maxPathLength - p.minLength) p.minLength (p.judge env) := by
  by_cases hcap : env.config.maxPathLength < p.minLength
  · have hf : (Search.begin env {} p base).2.finished = true := by simp [Search.begin, hp, hcap]
    rw [if_pos hcap, solutions, isCut, Search.rest_of_finished hf]
    simp [Search.begin, hp, ht, hcap, Tally.cutOff]
  · have hbegin : Search.begin env {} p base = ({}, .atRound env p base p.minLength
        (env.config.maxPathLength - p.minLength) (p.judge env)) := by
      have hmin : min p.minLength env.config.maxPathLength = p.minLength := by omega
      simp [Search.begin, hp, ht, hcap, hmin, Search.atRound, judge]
    rw [if_neg hcap, solutions, isCut, hbegin, Search.rest_atRound_shortest hmax hp]
    rfl

end Program

end GraphPatterns
