/-
One round of a search. What is still to come in a round is what comes of its agenda and then of the
start vertices that are left (`Search.pending`). A step takes the first of these outcomes or takes none
(`Search.step_within`), so the threads that come to the end of the program in a round are the pending
arrivals in order, unless the search ends before it is through with them (`Search.round_pending`).
-/
import GraphPatterns.Proofs.Outcomes

namespace GraphPatterns

namespace Judge

/-- A judge that never ends a search: one that wants everything, or one for each pair of endpoints. -/
def NeverEnds : Judge → Prop
  | .overall c => c.selector = .all ∧ c.terminated = false
  | .perPair _ => True

theorem NeverEnds.isDone {judge : Judge} (h : judge.NeverEnds) : judge.isDone = false := by
  cases judge with
  | overall c => exact h.2
  | perPair cs => rfl

theorem NeverEnds.offer {judge : Judge} (h : judge.NeverEnds) (fresh : Controller)
    (ends : VertexId × VertexId) (length : Nat) : (judge.offer fresh ends length).2.NeverEnds := by
  cases judge with
  | overall c =>
    obtain ⟨hall, ht⟩ := h
    simp [Judge.offer, Controller.offer, Controller.judge, Controller.accept, NeverEnds, hall, ht]
  | perPair cs => trivial

/-- A choice for each pair of endpoints never ends a search, nor does a choice that wants everything. -/
theorem neverEnds_start {scope : SearchScope} {fresh : Controller}
    (h : scope = .perEndpoints ∨ fresh.selector = .all ∧ fresh.terminated = false) :
    (start scope fresh).NeverEnds := by
  cases scope with
  | overall => exact h.resolve_left nofun
  | perEndpoints => trivial

end Judge

namespace Search

/-- A search at the beginning of a round. -/
def atRound (env : Env) (p : Program) (base : Bindings) (limit deeper : Nat) (judge : Judge) :
    Search where
  program := p
  base := base
  starts := startVertices env p base
  agenda := []
  limit := limit
  deeper := deeper
  blocked := false
  judge := judge
  finished := false

/-- The outcomes that are still to come in the round. -/
def pending (env : Env) (s : Search) : List Outcome :=
  s.agenda.flatMap (·.outcomes env s.program) ++
    s.starts.flatMap fun v =>
      (Choice.resume (.start v s.base s.limit s.program.idle)).outcomes env s.program

/-- Whether nothing is left to try in the round. -/
def isThrough (s : Search) : Bool := s.agenda.isEmpty && s.starts.isEmpty

theorem isThrough_iff {s : Search} : s.isThrough = true ↔ s.agenda = [] ∧ s.starts = [] := by
  simp [isThrough]

theorem pending_of_isThrough {env : Env} {s : Search} (h : s.isThrough = true) :
    s.pending env = [] := by
  obtain ⟨ha, hs⟩ := isThrough_iff.mp h
  simp [pending, ha, hs]

/-- The thread that the next instruction brings to the end of the program, if it does. -/
def arriving? (s : Search) : Option Thread :=
  match s.agenda with
  | .resume t :: _ =>
    match t.slack, s.program.code[t.pc]? with
    | slack + 1, some .accept => some { t with slack := slack }
    | _, _ => none
  | _ => none

theorem arriving?_resume (env : Env) {s : Search} {t : Thread} {rest : List Choice} {slack : Nat}
    {i : Inst} (ha : s.agenda = .resume t :: rest) (hs : t.slack = slack + 1)
    (hi : s.program.code[t.pc]? = some i) :
    s.arriving? = match { t with slack := slack }.execute env i with
      | .accepted u => some u
      | _ => none := by
  cases he : { t with slack := slack }.execute env i with
  | accepted u =>
    obtain ⟨rfl, rfl⟩ := Thread.execute_accepted he
    simp [arriving?, ha, hs, hi]
  | _ =>
    have hne : i ≠ .accept := by
      rintro rfl
      cases he
    simp only [arriving?, ha, hs, hi]
    split
    · next h => exact absurd (Option.some.inj h) hne
    · rfl

/-- What a step does in the middle of a round. -/
inductive Within (env : Env) (tally : Tally) (s : Search) : Prop where
  /-- It comes to no outcome. -/
  | moves (tally' : Tally) (rest : List Choice) (starts : List VertexId)
      (step : s.step env tally = (tally', .goesOn { s with agenda := rest, starts := starts }))
      (truncated : tally'.truncated = tally.truncated) (arriving : s.arriving? = none)
      (pending : s.pending env = Search.pending env { s with agenda := rest, starts := starts })
  /-- It comes to a thread that is blocked. -/
  | blocks (rest : List Choice)
      (step : s.step env tally = (tally.pruned, .goesOn { s with agenda := rest, blocked := true }))
      (arriving : s.arriving? = none)
      (pending : s.pending env = .blocked :: Search.pending env { s with agenda := rest })
  /-- It comes to an arrival. -/
  | arrives (t : Thread) (rest : List Choice) (step : s.step env tally = s.accept env tally t rest)
      (arriving : s.arriving? = some t)
      (pending : s.pending env = .arrives t :: Search.pending env { s with agenda := rest })

theorem within_resume {env : Env} {tally : Tally} {s : Search} {t : Thread} {rest : List Choice}
    (hf : s.finished = false) (ha : s.agenda = .resume t :: rest) : Within env tally s := by
  have hstep : s.step env tally = s.resume env tally t rest := by simp [step, hf, ha]
  have hpend : s.pending env = (Choice.resume t).outcomes env s.program ++
      Search.pending env { s with agenda := rest } := by
    simp [pending, ha]
  by_cases hrun : ∃ slack i, t.slack = slack + 1 ∧ s.program.code[t.pc]? = some i
  · obtain ⟨slack, i, hs, hi⟩ := hrun
    have harr := arriving?_resume env ha hs hi
    rw [Choice.outcomes_resume hs hi] at hpend
    simp only [resume, hs, hi] at hstep
    cases he : { t with slack := slack }.execute env i with
    | threads ts =>
      rw [he] at hstep harr hpend
      refine .moves tally (ts.map .resume ++ rest) s.starts hstep rfl harr ?_
      rw [hpend]
      simp [Effect.outcomes, pending, List.flatMap_map]
    | pruned =>
      rw [he] at hstep harr hpend
      exact .moves tally.pruned rest s.starts hstep rfl harr hpend
    | blocked =>
      rw [he] at hstep harr hpend
      exact .blocks rest hstep harr hpend
    | wantsEdge u pattern grouped room =>
      rw [he] at hstep harr hpend
      refine .moves tally (.extend u pattern grouped room
        (env.store.neighbors u.walk.current pattern.direction) :: rest) s.starts hstep rfl harr ?_
      rw [hpend]
      simp [Effect.outcomes, pending]
    | accepted u =>
      rw [he] at hstep harr hpend
      exact .arrives u rest hstep harr hpend
  · have hstuck : ∀ slack i, t.slack = slack + 1 → s.program.code[t.pc]? ≠ some i :=
      fun slack i hs hi => hrun ⟨slack, i, hs, hi⟩
    rw [Choice.outcomes_stuck hstuck] at hpend
    refine .moves tally rest s.starts ?_ rfl ?_ hpend
    · rw [hstep, resume]
      split
      · next hs hi => exact absurd hi (hstuck _ _ hs)
      · rfl
    · simp only [arriving?, ha]
      split
      · next hs hi => exact absurd hi (hstuck _ _ hs)
      · rfl

theorem within_extend {env : Env} {tally : Tally} {s : Search} {t : Thread} {pattern : EdgePattern}
    {grouped : Bool} {room : Nat} {candidates : List (EdgeId × VertexId)} {rest : List Choice}
    (hmax : env.config.maxSteps = none) (hf : s.finished = false)
    (ha : s.agenda = .extend t pattern grouped room candidates :: rest) : Within env tally s := by
  have harr : s.arriving? = none := by simp [arriving?, ha]
  cases candidates with
  | nil =>
    refine .moves tally rest s.starts (by simp [step, hf, ha]) rfl harr ?_
    simp [pending, ha]
  | cons edge candidates =>
    have hstep : s.step env tally =
        s.expand env tally t pattern grouped room edge candidates rest := by simp [step, hf, ha]
    have hspent : tally.isSpent env.config = false := by simp [Tally.isSpent, hmax]
    have hmay : (t.admitsStep s.program.mode edge.1 edge.2 &&
        pattern.filler.admits env t.bindings grouped (t.takenBy? pattern.filler.name) (.edge edge.1)) =
        Choice.mayCross env s.program t pattern grouped edge := rfl
    simp only [expand, hspent, Bool.false_eq_true, if_false, hmay] at hstep
    by_cases hc : Choice.mayCross env s.program t pattern grouped edge = true
    · rw [if_pos hc] at hstep
      refine .moves _ _ s.starts hstep rfl harr ?_
      simp [pending, ha, Choice.outcomes_extend_cons, hc]
    · rw [if_neg hc] at hstep
      refine .moves _ _ s.starts hstep rfl harr ?_
      simp [pending, ha, Choice.outcomes_extend_cons, hc]

/-- As long as there is something left to try in a round, each step takes the first of the outcomes
that are still to come, or takes none. -/
theorem step_within {env : Env} (tally : Tally) {s : Search} (hmax : env.config.maxSteps = none)
    (hf : s.finished = false) (ht : s.isThrough = false) : Within env tally s := by
  cases ha : s.agenda with
  | cons c rest =>
    cases c with
    | resume t => exact within_resume hf ha
    | extend t pattern grouped room candidates => exact within_extend hmax hf ha
  | nil =>
    cases hs : s.starts with
    | nil => simp [isThrough, ha, hs] at ht
    | cons v starts =>
      refine .moves tally.triedStart [.resume (.start v s.base s.limit s.program.idle)] starts ?_ rfl
        ?_ ?_
      · simp [step, hf, ha, hs]
      · simp [arriving?, ha]
      · simp [pending, ha, hs]

/-! ## Candidates -/

/-- What a thread at the end of the program offers. In a round of one length that is nothing if the
walk is shorter. -/
def candidate? (env : Env) (p : Program) (t : Thread) : Option Solution :=
  if p.selector.isShortest && t.room != 0 then none else solution? env p t

theorem accept_none {env : Env} {s : Search} {t : Thread} (tally : Tally) (rest : List Choice)
    (h : candidate? env s.program t = none) :
    ∃ tally', s.accept env tally t rest = (tally', .goesOn { s with agenda := rest }) ∧
      tally'.truncated = tally.truncated := by
  unfold candidate? at h
  unfold accept
  split at h
  · next hc => exact ⟨tally, if_pos hc, rfl⟩
  · next hc => exact ⟨tally.pruned, by simp only [exact, if_neg hc, h], rfl⟩

theorem accept_some {env : Env} {s : Search} {t : Thread} {x : Solution} (tally : Tally)
    (rest : List Choice) (h : candidate? env s.program t = some x) :
    s.accept env tally t rest =
      let answer := s.judge.offer (fresh env s.program) (t.walk.start, t.walk.current) t.walk.length
      if answer.1 then
        (tally, .found x { s with agenda := rest, judge := answer.2, finished := answer.2.isDone })
      else (tally, .goesOn { s with agenda := rest, judge := answer.2 }) := by
  unfold candidate? at h
  split at h
  · cases h
  · next hc =>
    unfold accept
    simp only [exact, if_neg hc, h]

theorem accept_search? (env : Env) (tally : Tally) (s : Search) (t : Thread) (rest : List Choice) :
    ∃ judge finished, (s.accept env tally t rest).2.search? =
      some { s with agenda := rest, judge := judge, finished := finished } := by
  cases h : candidate? env s.program t with
  | none =>
    obtain ⟨tally', he, -⟩ := accept_none tally rest h
    exact ⟨s.judge, s.finished, by rw [he]; rfl⟩
  | some x =>
    rw [accept_some tally rest h]
    simp only
    split <;> exact ⟨_, _, rfl⟩

/-! ## The arrivals of a round -/

/-- Runs a search to the end of its round, or until no more solutions are wanted: the threads that come
to the end of the program, in order, and what is left of the search. -/
def round (env : Env) (tally : Tally) (s : Search) : List Thread × Search :=
  if s.finished || s.isThrough then ([], s)
  else
    match h : (s.step env tally).2.search? with
    | none => ([], s)
    | some u =>
      have : Smaller u s := step_smaller h
      let later := round env (s.step env tally).1 u
      (s.arriving?.toList ++ later.1, later.2)
termination_by s
decreasing_by assumption

/-- The arrivals of a round are, in order, those that were pending before it without those that are
left; and nothing is left unless the search has ended. -/
theorem round_pending {env : Env} (tally : Tally) (s : Search) (hmax : env.config.maxSteps = none) :
    Outcome.arrivals (s.pending env) =
        (s.round env tally).1 ++ Outcome.arrivals ((s.round env tally).2.pending env) ∧
      ((s.round env tally).2.finished = false → (s.round env tally).2.isThrough = true) := by
  fun_induction round env tally s with
  | case1 tally s hdone =>
    refine ⟨rfl, fun hf => ?_⟩
    simp only at hf
    simpa [hf] using hdone
  | case2 tally s hdone hnone =>
    simp only [Bool.or_eq_true, not_or, Bool.not_eq_true] at hdone
    cases step_within tally hmax hdone.1 hdone.2 with
    | moves tally' rest starts hstep => rw [hstep] at hnone; cases hnone
    | blocks rest hstep => rw [hstep] at hnone; cases hnone
    | arrives t rest hstep =>
      obtain ⟨judge, finished, he⟩ := accept_search? env tally s t rest
      rw [hstep, he] at hnone
      cases hnone
  | case3 tally s hdone u hu _ _ ih =>
    simp only [Bool.or_eq_true, not_or, Bool.not_eq_true] at hdone
    refine ⟨?_, ih.2⟩
    rw [List.append_assoc, ← ih.1]
    cases step_within tally hmax hdone.1 hdone.2 with
    | moves tally' rest starts hstep _ harr hpend =>
      rw [hstep] at hu
      cases hu
      rw [harr, hpend]
      rfl
    | blocks rest hstep harr hpend =>
      rw [hstep] at hu
      cases hu
      rw [harr, hpend]
      rfl
    | arrives t rest hstep harr hpend =>
      obtain ⟨judge, finished, he⟩ := accept_search? env tally s t rest
      rw [hstep, he] at hu
      cases hu
      rw [harr, hpend]
      rfl

end Search

end GraphPatterns
