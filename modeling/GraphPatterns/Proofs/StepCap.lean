/-
A cap on the steps of a search cuts off the end of what is found, and nothing else. Under two caps a
join takes the same steps until the smaller one stops it (`Join.step_withSteps`), and a join that is
stopped hands out nothing more. So what is found under the smaller cap comes first under the larger
one (`Join.collect_withSteps`).

`Join.pull` is the run of a join as its caller sees it, one call after the other. What is counted at
each point of it follows from what the steps of a search do to a tally (`Tally.Invariant`).
-/
import GraphPatterns.Proofs.Selected
import Mathlib.Data.List.Infix

namespace GraphPatterns

/-- The same surroundings with another cap on the steps of a search. -/
def Env.withSteps (env : Env) (most : Option Nat) : Env :=
  { env with config := { env.config with maxSteps := most } }

/-- Whether a run stops here for good: something was cut off, and no more edges may be looked at. -/
def Tally.isStopped (t : Tally) (env : Env) : Bool := t.truncated && t.isSpent env.config

/-! ## What is counted -/

/-- A property of tallies that every step of a search keeps. An edge is looked at only as long as the cap
allows it. -/
structure Tally.Invariant (env : Env) (P : Tally → Prop) : Prop where
  triedStart : ∀ {t : Tally}, P t → P t.triedStart
  pruned : ∀ {t : Tally}, P t → P t.pruned
  cutOff : ∀ {t : Tally}, P t → P t.cutOff
  expanded : ∀ {t : Tally}, t.isSpent env.config = false → P t → P t.expanded

namespace Tally

theorem invariant_edgesExpanded {env : Env} {m : Nat} (hm : env.config.maxSteps = some m) :
    Invariant env fun t => t.edgesExpanded ≤ m where
  triedStart h := h
  pruned h := h
  cutOff h := h
  expanded {t} hspent _ := by
    simp only [isSpent, hm, Option.any_some, decide_eq_false_iff_not] at hspent
    simp only [expanded]
    omega

theorem invariant_resultsYielded (env : Env) (n : Nat) :
    Invariant env fun t => t.resultsYielded = n where
  triedStart h := h
  pruned h := h
  cutOff h := h
  expanded _ h := h

end Tally

namespace Search

variable {env : Env} {P : Tally → Prop}

theorem accept_invariant (hP : Tally.Invariant env P) {tally : Tally} (h : P tally) (s : Search)
    (t : Thread) (left : List Choice) : P (s.accept env tally t left).1 := by
  unfold accept
  dsimp only
  split
  · exact h
  · split
    · exact hP.pruned h
    · split <;> exact h

theorem resume_invariant (hP : Tally.Invariant env P) {tally : Tally} (h : P tally) (s : Search)
    (t : Thread) (left : List Choice) : P (s.resume env tally t left).1 := by
  unfold resume
  split
  · split
    · exact h
    · exact hP.pruned h
    · exact hP.pruned h
    · exact h
    · exact accept_invariant hP h ..
  · exact h

theorem expand_invariant (hP : Tally.Invariant env P) {tally : Tally} (h : P tally) (s : Search)
    (t : Thread) (pattern : EdgePattern) (grouped : Bool) (room : Nat) (edge : EdgeId × VertexId)
    (candidates : List (EdgeId × VertexId)) (left : List Choice) :
    P (s.expand env tally t pattern grouped room edge candidates left).1 := by
  unfold expand
  dsimp only
  split
  · exact hP.cutOff h
  · next hspent =>
    have hexpanded := hP.expanded (Bool.eq_false_iff.mpr hspent) h
    split
    · exact hexpanded
    · exact hP.pruned hexpanded

theorem nextRound_invariant (hP : Tally.Invariant env P) {tally : Tally} (h : P tally) (s : Search) :
    P (s.nextRound env tally).1 := by
  unfold nextRound
  dsimp only
  split
  · split
    · exact hP.cutOff h
    · exact h
  · split
    · exact h
    · split
      · exact hP.cutOff h
      · exact h

theorem step_invariant (hP : Tally.Invariant env P) {tally : Tally} (h : P tally) (s : Search) :
    P (s.step env tally).1 := by
  unfold step
  split
  · exact h
  · split
    · exact resume_invariant hP h ..
    · exact expand_invariant hP h ..
    · exact h
    · split
      · exact hP.triedStart h
      · exact nextRound_invariant hP h s

theorem next_invariant (hP : Tally.Invariant env P) {tally : Tally} (h : P tally) (s : Search) :
    P (s.next env tally).1 := by
  fun_induction next env tally s with
  | case1 tally s tally' hs => exact (congrArg (P ·.1) hs).mp (step_invariant hP h s)
  | case2 tally s tally' x u hs => exact (congrArg (P ·.1) hs).mp (step_invariant hP h s)
  | case3 tally s tally' u hs _ ih => exact ih ((congrArg (P ·.1) hs).mp (step_invariant hP h s))

theorem begin_invariant (hP : Tally.Invariant env P) {tally : Tally} (h : P tally) (p : Program)
    (base : Bindings) : P (begin env tally p base).1 := by
  unfold begin
  dsimp only
  split
  · exact hP.cutOff h
  · exact h

end Search

/-! ## A run as its caller sees it -/

namespace Join

/-- Asks so many times for the next match: the matches that were handed out, and the cursor after
them. -/
def pull (j : Join) : Nat → Cursor → List Match × Cursor
  | 0, c => ([], c)
  | n + 1, c =>
    let later := j.pull n (j.next c).2
    ((j.next c).1.toList ++ later.1, later.2)

variable {j : Join} {P : Tally → Prop} {c d : Cursor} {m : Match}

theorem next_exhausted (h : j.step c = .exhausted) : j.next c = (none, c) := by
  rw [next]
  split <;> simp_all

theorem next_yields (h : j.step c = .yields m d) : j.next c = (some m, d) := by
  rw [next]
  split <;> simp_all

theorem next_goesOn (h : j.step c = .goesOn d) : j.next c = j.next d := by
  rw [next]
  split <;> simp_all

theorem collect_exhausted (found : Array Match) (h : j.step c = .exhausted) :
    j.collect found c = (found.toList, c) := by
  rw [collect]
  split <;> simp_all

theorem collect_yields (found : Array Match) (h : j.step c = .yields m d) :
    j.collect found c = j.collect (found.push m) d := by
  rw [collect]
  split <;> simp_all

theorem collect_goesOn (found : Array Match) (h : j.step c = .goesOn d) :
    j.collect found c = j.collect found d := by
  rw [collect]
  split <;> simp_all

theorem step_of_none {l : Level} {outer : List Level} {tally : Tally}
    (hopen : c.tally.isStopped j.env = false) (hl : c.levels = l :: outer)
    (hn : l.search.next j.env c.tally = (tally, none)) : j.step c = .goesOn ⟨outer, tally⟩ := by
  simp only [Tally.isStopped] at hopen
  simp only [step, hopen, hl, hn, Bool.false_eq_true, if_false]

/-- A step of a join counts what its searches count, and the result that it hands out. -/
theorem step_invariant (hP : Tally.Invariant j.env P) (h : P c.tally) :
    match j.step c with
    | .exhausted => True
    | .goesOn d => P d.tally
    | .yields _ d => ∃ t : Tally, P t ∧ d.tally = t.yielded := by
  simp only [step]
  by_cases hstop : (c.tally.truncated && c.tally.isSpent j.env.config) = true
  · rw [if_pos hstop]
    trivial
  rw [if_neg hstop]
  cases c.levels with
  | nil => trivial
  | cons l outer =>
    have hnext := l.search.next_invariant hP h
    cases hn : l.search.next j.env c.tally with
    | mk tally found =>
      rw [hn] at hnext
      simp only [hn]
      cases found with
      | none => exact hnext
      | some next =>
        obtain ⟨x, search⟩ := next
        cases l.later with
        | cons p later => exact Search.begin_invariant hP hnext p x.bindings
        | nil =>
          simp only
          by_cases hadmits : j.admits x.bindings (l.before ++ [x.path]) = true
          · rw [if_pos hadmits]
            exact ⟨tally, hnext, rfl⟩
          · rw [if_neg hadmits]
            exact hP.pruned hnext

theorem next_invariant (hP : Tally.Invariant j.env P) (h : P c.tally) :
    match j.next c with
    | (none, d) => P d.tally
    | (some _, d) => ∃ t : Tally, P t ∧ d.tally = t.yielded := by
  fun_induction next j c with
  | case1 c hs => exact h
  | case2 c m d hs =>
    have hstep := step_invariant hP h
    rw [hs] at hstep
    exact hstep
  | case3 c d hs _ ih =>
    have hstep := step_invariant hP h
    rw [hs] at hstep
    exact ih hstep

theorem pull_edgesExpanded {most : Nat} (hmost : j.env.config.maxSteps = some most)
    (h : c.tally.edgesExpanded ≤ most) (n : Nat) :
    (j.pull n c).2.tally.edgesExpanded ≤ most := by
  induction n generalizing c with
  | zero => exact h
  | succ n ih =>
    have hnext := next_invariant (Tally.invariant_edgesExpanded hmost) h
    refine ih ?_
    cases hn : j.next c with
    | mk found d =>
      rw [hn] at hnext
      cases found with
      | none => exact hnext
      | some m =>
        obtain ⟨t, ht, hd⟩ := hnext
        rw [hd]
        exact ht

/-- The results that are counted are those that were handed out. -/
theorem pull_resultsYielded (n : Nat) (c : Cursor) :
    (j.pull n c).2.tally.resultsYielded = c.tally.resultsYielded + (j.pull n c).1.length := by
  induction n generalizing c with
  | zero => rfl
  | succ n ih =>
    have hnext := next_invariant (Tally.invariant_resultsYielded j.env c.tally.resultsYielded)
      (c := c) rfl
    simp only [pull, List.length_append]
    rw [ih]
    cases hn : j.next c with
    | mk found d =>
      rw [hn] at hnext
      cases found with
      | none =>
        simp only at hnext
        simp [hnext]
      | some m =>
        obtain ⟨t, ht, hd⟩ := hnext
        simp only [hd, Tally.yielded, ht, Option.toList_some, List.length_singleton]
        omega

/-- A call that hands out nothing ends at a cursor from which nothing more comes. -/
theorem step_of_next_none (h : (j.next c).1 = none) : j.step (j.next c).2 = .exhausted := by
  fun_induction next j c with
  | case1 c hs => exact hs
  | case2 c m d hs => cases h
  | case3 c d hs _ ih => exact ih h

/-- Once a call has handed out nothing, no later call hands out or counts anything. -/
theorem pull_of_next_none (h : (j.next c).1 = none) (n : Nat) :
    j.pull n (j.next c).2 = ([], (j.next c).2) := by
  have hover := next_exhausted (step_of_next_none h)
  induction n with
  | zero => rfl
  | succ n ih => simp [pull, hover, ih]

theorem collect_next (found : Array Match) (c : Cursor) :
    match j.next c with
    | (none, d) => j.collect found c = (found.toList, d)
    | (some m, d) => j.collect found c = j.collect (found.push m) d := by
  fun_induction next j c with
  | case1 c hs => exact collect_exhausted found hs
  | case2 c m d hs => exact collect_yields found hs
  | case3 c d hs _ ih =>
    rw [collect_goesOn found hs]
    exact ih

/-- Collecting may begin with any number of calls. -/
theorem collect_pull (found : Array Match) (n : Nat) (c : Cursor) :
    j.collect found c = j.collect (found ++ (j.pull n c).1) (j.pull n c).2 := by
  induction n generalizing c found with
  | zero => simp [pull]
  | succ n ih =>
    have hnext := collect_next (j := j) found c
    cases hn : j.next c with
    | mk one d =>
      rw [hn] at hnext
      cases one with
      | none =>
        have hover : j.pull n d = ([], d) := by
          have := pull_of_next_none (j := j) (c := c) (by rw [hn]) n
          rwa [hn] at this
        have hlast : j.next d = (none, d) := by
          have := next_exhausted (step_of_next_none (j := j) (c := c) (by rw [hn]))
          rwa [hn] at this
        have hend := collect_next (j := j) found d
        rw [hlast] at hend
        simp only [pull, hn, hover]
        simpa using hnext.trans hend.symm
      | some m =>
        rw [hnext, ih]
        simp [pull, hn]

/-- The matches that are collected are handed out by some number of calls, and the next one finds nothing
more. -/
theorem exists_pull_collect (found : Array Match) (c : Cursor) :
    ∃ n, (j.collect found c).1 = found.toList ++ (j.pull n c).1 ∧
      j.next (j.pull n c).2 = (none, (j.collect found c).2) := by
  fun_induction collect j found c with
  | case1 found c hs => exact ⟨0, (List.append_nil _).symm, next_exhausted hs⟩
  | case2 found c m d hs _ ih =>
    obtain ⟨n, hall, hend⟩ := ih
    have hnext := next_yields hs
    exact ⟨n + 1, by simp [pull, hnext, hall], by simpa [pull, hnext] using hend⟩
  | case3 found c d hs _ ih =>
    obtain ⟨n, hall, hend⟩ := ih
    have hnext := next_goesOn hs
    cases n with
    | zero => exact ⟨0, hall, hnext.trans hend⟩
    | succ n => exact ⟨n + 1, by simpa [pull, hnext] using hall, by simpa [pull, hnext] using hend⟩

end Join

/-! ## Two caps -/

section TwoCaps

variable {env : Env} {m : Nat} {most : Option Nat}

/-- What a larger cap stops, a smaller one stops too. -/
theorem Tally.isSpent_withSteps (hle : ∀ n ∈ most, m ≤ n) {t : Tally}
    (h : t.isSpent (env.withSteps (some m)).config = false) :
    t.isSpent (env.withSteps most).config = false := by
  cases most with
  | none => rfl
  | some n =>
    have hmn := hle n rfl
    simp only [isSpent, Env.withSteps, Option.any_some, decide_eq_false_iff_not] at h ⊢
    omega

namespace Search

/-- Only where an edge is to be looked at does a step see the cap. -/
theorem step_withSteps (hle : ∀ n ∈ most, m ≤ n) (tally : Tally) (s : Search) :
    s.step (env.withSteps (some m)) tally = s.step (env.withSteps most) tally ∨
      s.step (env.withSteps (some m)) tally = (tally.cutOff, .exhausted) ∧
        tally.isSpent (env.withSteps (some m)).config = true := by
  unfold step
  split
  · exact .inl rfl
  · split
    · exact .inl rfl
    · unfold expand
      cases hspent : tally.isSpent (env.withSteps (some m)).config with
      | true => exact .inr ⟨rfl, rfl⟩
      | false =>
        rw [Tally.isSpent_withSteps hle hspent]
        exact .inl rfl
    · exact .inl rfl
    · exact .inl rfl

theorem next_exhausted {tally tally' : Tally} {s : Search}
    (h : s.step env tally = (tally', .exhausted)) : s.next env tally = (tally', none) := by
  rw [next]
  split <;> simp_all

theorem next_found {tally tally' : Tally} {s u : Search} {x : Solution}
    (h : s.step env tally = (tally', .found x u)) : s.next env tally = (tally', some (x, u)) := by
  rw [next]
  split <;> simp_all

theorem next_goesOn {tally tally' : Tally} {s u : Search}
    (h : s.step env tally = (tally', .goesOn u)) : s.next env tally = u.next env tally' := by
  rw [next]
  split <;> simp_all

/-- A search finds the same next solution, or is stopped. -/
theorem next_withSteps (hle : ∀ n ∈ most, m ≤ n) (tally : Tally) (s : Search) :
    s.next (env.withSteps (some m)) tally = s.next (env.withSteps most) tally ∨
      ∃ tally', s.next (env.withSteps (some m)) tally = (tally', none) ∧
        tally'.isStopped (env.withSteps (some m)) = true := by
  have stopped {tally : Tally} {s : Search}
      (h : s.step (env.withSteps (some m)) tally = (tally.cutOff, .exhausted))
      (hspent : tally.isSpent (env.withSteps (some m)).config = true) :
      ∃ tally', s.next (env.withSteps (some m)) tally = (tally', none) ∧
        tally'.isStopped (env.withSteps (some m)) = true :=
    ⟨tally.cutOff, next_exhausted h, hspent⟩
  induction s using smaller_wf.induction generalizing tally with
  | _ s ih =>
    rcases @step_withSteps env m most hle tally s with hsame | ⟨hstop, hspent⟩
    · cases hs : s.step (env.withSteps most) tally with
      | mk tally' progress =>
        rw [hs] at hsame
        cases progress with
        | exhausted => exact .inl ((next_exhausted hsame).trans (next_exhausted hs).symm)
        | found x u => exact .inl ((next_found hsame).trans (next_found hs).symm)
        | goesOn u =>
          rw [next_goesOn hsame, next_goesOn hs]
          exact ih u (step_smaller (by rw [hs]; rfl)) tally'
    · exact .inr (stopped hstop hspent)

end Search

namespace Join

/-- The same join with another cap on its steps. -/
def withSteps (j : Join) (most : Option Nat) : Join := { j with env := j.env.withSteps most }

variable {j : Join}

/-- A join takes the same step, or is stopped. -/
theorem step_withSteps (hle : ∀ n ∈ most, m ≤ n) (c : Cursor) :
    (j.withSteps (some m)).step c = (j.withSteps most).step c ∨
      ∃ d, ((j.withSteps (some m)).step c = .goesOn d ∨
          (j.withSteps (some m)).step c = .exhausted ∧ d = c) ∧
        d.tally.isStopped (j.env.withSteps (some m)) = true := by
  cases hstopped : c.tally.isStopped (j.env.withSteps (some m)) with
  | true => exact .inr ⟨c, .inr ⟨if_pos hstopped, rfl⟩, hstopped⟩
  | false =>
    have hopen : c.tally.isStopped (j.env.withSteps most) = false := by
      cases ht : c.tally.truncated with
      | false => simp [Tally.isStopped, ht]
      | true =>
        simp only [Tally.isStopped, ht, Bool.true_and] at hstopped ⊢
        exact Tally.isSpent_withSteps hle hstopped
    cases hl : c.levels with
    | nil =>
      simp only [Tally.isStopped] at hstopped hopen
      exact .inl (by simp only [step, withSteps, hstopped, hopen, hl])
    | cons l outer =>
      rcases @Search.next_withSteps j.env m most hle c.tally l.search with hsame | ⟨tally', hnone, hstop⟩
      · simp only [Tally.isStopped] at hstopped hopen
        simp only [step, withSteps, hstopped, hopen, hl, hsame]
        exact .inl rfl
      · exact .inr ⟨⟨outer, tally'⟩, .inl (step_of_none hstopped hl hnone), hstop⟩

theorem collect_of_isStopped {c : Cursor} (found : Array Match)
    (h : c.tally.isStopped j.env = true) : j.collect found c = (found.toList, c) :=
  collect_exhausted found (if_pos h)

theorem prefix_collect (found : Array Match) (c : Cursor) :
    found.toList <+: (j.collect found c).1 := by
  obtain ⟨n, hall, -⟩ := exists_pull_collect (j := j) found c
  exact ⟨_, hall.symm⟩

/-- **A smaller cap cuts off the end.** A join that is stopped has found what comes first under a larger
cap; one that is not has done the same under both. -/
theorem collect_withSteps (hle : ∀ n ∈ most, m ≤ n) (found : Array Match) (c : Cursor) :
    (j.withSteps (some m)).collect found c = (j.withSteps most).collect found c ∨
      ((j.withSteps (some m)).collect found c).1 <+: ((j.withSteps most).collect found c).1 ∧
        ((j.withSteps (some m)).collect found c).2.tally.truncated = true := by
  induction c using smaller_wf.induction generalizing found with
  | _ c ih =>
    rcases step_withSteps (j := j) hle c with hsame | ⟨d, hstep, hstop⟩
    · cases hs : (j.withSteps most).step c with
      | exhausted =>
        rw [hs] at hsame
        exact .inl ((collect_exhausted found hsame).trans (collect_exhausted found hs).symm)
      | yields x d =>
        rw [hs] at hsame
        rw [collect_yields found hsame, collect_yields found hs]
        exact ih d (step_smaller (by rw [hs]; rfl)) (found.push x)
      | goesOn d =>
        rw [hs] at hsame
        rw [collect_goesOn found hsame, collect_goesOn found hs]
        exact ih d (step_smaller (by rw [hs]; rfl)) found
    · have hend : (j.withSteps (some m)).collect found c = (found.toList, d) := by
        rcases hstep with hgo | ⟨hnone, rfl⟩
        · rw [collect_goesOn found hgo]
          exact collect_of_isStopped found hstop
        · exact collect_exhausted found hnone
      refine .inr ?_
      rw [hend]
      exact ⟨prefix_collect found c, (Bool.and_eq_true_iff.mp hstop).1⟩

end Join

end TwoCaps

/-! ## Patterns -/

/-- A pattern is made ready in the same way whatever the cap. -/
theorem GraphPattern.search_withSteps (g : GraphPattern) (env : Env) (most : Option Nat) :
    g.search (env.withSteps most) =
      (g.search env).map fun ready => (ready.1.withSteps most, ready.2) := by
  unfold search
  have hvalid : g.validate (env.withSteps most).store (env.withSteps most).config.strictCatalog
    (env.withSteps most).seed.kinds = g.validate env.store env.config.strictCatalog env.seed.kinds := rfl
  rw [hvalid]
  cases g.validate env.store env.config.strictCatalog env.seed.kinds with
  | error e => rfl
  | ok kinds =>
    refine congrArg Except.ok (Prod.ext rfl ?_)
    cases g.paths.map Program.compile <;> rfl

theorem GraphPattern.matches_of_search {g : GraphPattern} {env : Env} {j : Join} {c : Cursor}
    (h : g.search env = .ok (j, c)) :
    g.matches env = .ok ((j.collect #[] c).1, (j.collect #[] c).2.tally) := by
  unfold GraphPattern.matches
  rw [h]
  rfl

theorem GraphPattern.tally_of_search {g : GraphPattern} {env : Env} {j : Join} {c : Cursor}
    (h : g.search env = .ok (j, c)) :
    j.env = env ∧ c.tally.edgesExpanded = 0 ∧ c.tally.resultsYielded = 0 := by
  unfold search at h
  cases hv : g.validate env.store env.config.strictCatalog env.seed.kinds with
  | error e => rw [hv] at h; cases h
  | ok kinds =>
    rw [hv] at h
    cases h
    refine ⟨rfl, ?_⟩
    cases g.paths.map Program.compile with
    | nil => exact ⟨rfl, rfl⟩
    | cons p later =>
      simp only [Join.begin, Search.begin]
      split <;> exact ⟨rfl, rfl⟩

/-- The run of a join from a cursor on, as its caller sees it: what is found in all, the tally at the
end, and what holds at every point. -/
structure Join.Runs (j : Join) (start : Cursor) (found : List Match) (tally : Tally) : Prop where
  /-- Some number of calls hands out everything, and the next call nothing. -/
  ends : ∃ n, (j.pull n start).1 = found ∧ (j.next (j.pull n start).2).1 = none
  /-- No more edges were looked at than the cap allows. -/
  capped : ∀ n, ∀ most ∈ j.env.config.maxSteps, (j.pull n start).2.tally.edgesExpanded ≤ most
  /-- The results that are counted are those that were handed out. -/
  counted : ∀ n, (j.pull n start).2.tally.resultsYielded = (j.pull n start).1.length
  /-- A call that hands out nothing is the end, and no later call hands out or counts anything. -/
  stays : ∀ n, (j.next (j.pull n start).2).1 = none →
    (j.pull n start).1 = found ∧ (j.next (j.pull n start).2).2.tally = tally ∧
      ∀ k, j.pull k (j.next (j.pull n start).2).2 = ([], (j.next (j.pull n start).2).2)

theorem Join.runs {j : Join} {c : Cursor} (he : c.tally.edgesExpanded = 0)
    (hr : c.tally.resultsYielded = 0) :
    j.Runs c (j.collect #[] c).1 (j.collect #[] c).2.tally where
  ends := by
    obtain ⟨n, hall, hend⟩ := exists_pull_collect (j := j) #[] c
    exact ⟨n, by simpa using hall.symm, by rw [hend]⟩
  capped n most hmost := pull_edgesExpanded hmost (he ▸ Nat.zero_le most) n
  counted n := by rw [pull_resultsYielded, hr, Nat.zero_add]
  stays n hnone := by
    have hcollect := collect_pull (j := j) #[] n c
    have hlast := collect_next (j := j) ((#[] : Array Match) ++ (j.pull n c).1) (j.pull n c).2
    cases hn : j.next (j.pull n c).2 with
    | mk one d =>
      obtain rfl : one = none := by rw [hn] at hnone; exact hnone
      rw [hn] at hlast
      have hover := pull_of_next_none (j := j) (c := (j.pull n c).2) (by rw [hn])
      rw [hn] at hover
      rw [hcollect, hlast]
      exact ⟨by simp, rfl, hover⟩

/-- **The step cap only cuts off the end.** What a pattern finds under a cap is the beginning of what
it finds under a larger one or without one; and if nothing was cut off, it is all that there is. At
every point of either run the tally keeps to the cap and counts what was handed out, and a run that is
over stays over. -/
theorem GraphPattern.matches_withSteps (g : GraphPattern) (env : Env) (m : Nat) (most : Option Nat)
    {kinds : VariableKinds} (hle : ∀ n ∈ most, m ≤ n)
    (hvalid : g.validate env.store env.config.strictCatalog env.seed.kinds = .ok kinds) :
    ∃ found tally found' tally',
      g.matches (env.withSteps (some m)) = .ok (found, tally) ∧
      g.matches (env.withSteps most) = .ok (found', tally') ∧
      found <+: found' ∧
      (tally.truncated = false → g.matches (env.withSteps none) = .ok (found, tally)) ∧
      (∃ j c, g.search (env.withSteps (some m)) = .ok (j, c) ∧ j.Runs c found tally) ∧
      ∃ j c, g.search (env.withSteps most) = .ok (j, c) ∧ j.Runs c found' tally' := by
  obtain ⟨j, c, hsearch⟩ : ∃ j c, g.search env = .ok (j, c) := by
    unfold search
    rw [hvalid]
    exact ⟨_, _, rfl⟩
  have hready (cap : Option Nat) : g.search (env.withSteps cap) = .ok (j.withSteps cap, c) := by
    rw [g.search_withSteps, hsearch]
    rfl
  have hall (cap : Option Nat) := matches_of_search (hready cap)
  obtain ⟨-, he, hr⟩ := tally_of_search hsearch
  refine ⟨_, _, _, _, hall (some m), hall most, ?_, fun hcut => ?_,
    ⟨_, _, hready (some m), Join.runs he hr⟩, ⟨_, _, hready most, Join.runs he hr⟩⟩
  · rcases Join.collect_withSteps (j := j) hle #[] c with hsame | ⟨hbegins, -⟩
    · rw [hsame]
    · exact hbegins
  · rcases @Join.collect_withSteps m none j nofun #[] c with hsame | ⟨-, hflag⟩
    · rw [hall none, hsame]
    · rw [hflag] at hcut
      cases hcut

/-- No edge may be looked at, so the only match is cut off. -/
theorem matches_withSteps_hop :
    let p : PathPattern :=
      { expr := .term [.mk (.node {}) none, .mk (.edge { direction := .right }) none,
          .mk (.node {}) none] }
    let g := p.toGraphPattern
    let env : Env := ⟨Graph.hop.store, { maxPathLength := 1 }, []⟩
    let all : List Match := [⟨[], [⟨[⟨1⟩, ⟨2⟩], [⟨1⟩]⟩]⟩]
    (∀ n ∈ (none : Option Nat), 0 ≤ n) ∧ g.validate env.store true [] = .ok [] ∧
      ∃ tally tally', g.matches (env.withSteps (some 0)) = .ok ([], tally) ∧
        g.matches (env.withSteps none) = .ok (all, tally') ∧ tally.truncated = true ∧
        (∃ j c, g.search (env.withSteps (some 0)) = .ok (j, c) ∧ j.Runs c [] tally) ∧
        ∃ j c, g.search (env.withSteps none) = .ok (j, c) ∧ j.Runs c all tally' := by
  intro p g env all
  have hvalid : g.validate env.store true [] = .ok [] := rfl
  refine ⟨nofun, hvalid, ?_⟩
  obtain ⟨found, tally, found', tally', hfew, hall, -, -, hrun, hrun'⟩ :=
    g.matches_withSteps env 0 none nofun hvalid
  -- Three steps bring the first thread to its edge, where the cap stops it.
  have hstopped : ∃ tally : Tally, g.matches (env.withSteps (some 0)) = .ok ([], tally) ∧
      tally.truncated = true := by
    let j := (g.join env).withSteps (some 0)
    let s := (Search.begin j.env {} (.compile p) []).2
    have hnext : s.next j.env {} = (⟨1, 0, 0, 0, true⟩, none) :=
      (Search.next_goesOn rfl).trans <| (Search.next_goesOn rfl).trans <|
        (Search.next_goesOn rfl).trans <| Search.next_exhausted rfl
    have hcollect : j.collect #[] ⟨[⟨s, [], []⟩], {}⟩ = ([], ⟨[], ⟨1, 0, 0, 0, true⟩⟩) :=
      (Join.collect_goesOn _ (Join.step_of_none rfl rfl hnext)).trans (Join.collect_exhausted _ rfl)
    refine ⟨⟨1, 0, 0, 0, true⟩, ?_, rfl⟩
    rw [GraphPattern.matches_of_search (j := j) (c := ⟨[⟨s, [], []⟩], {}⟩) rfl, hcollect]
  have hmatches : (g.matches (env.withSteps none)).map (·.1) = .ok all :=
    (p.matches_ways (env.withSteps none) rfl rfl).trans rfl
  obtain ⟨tally₀, hnone, hcut⟩ := hstopped
  rw [hnone] at hfew
  rw [hall] at hmatches
  cases hfew
  obtain rfl : found' = all := Except.ok.inj hmatches
  exact ⟨tally, tally', hnone, hall, hcut, hrun, hrun'⟩

end GraphPatterns
