/-
The search of a pattern comes to its end, and not because instructions are counted. `Search.freeStep` is
a step for which the next thread always has something left to execute, so only the pattern and the
graph can bring it to an end. A search that is sustained takes the same steps with and without counting
(`Search.Sustained.freeStep_eq`), and those make it smaller. `Join.Ticks` puts such steps together over
all open searches and all calls of a run; no run goes on for ever (`GraphPattern.search_ends`).
-/
import GraphPatterns.Proofs.Slack
import GraphPatterns.Proofs.StepCap

namespace GraphPatterns

/-! ## Steps that are not counted -/

/-- The search, with something left to execute for the thread that comes next. -/
def Search.revived (s : Search) : Search :=
  match s.agenda with
  | .resume t :: rest => { s with agenda := .resume { t with slack := t.slack - 1 + 1 } :: rest }
  | _ => s

/-- A step that no thread is too short of instructions for. -/
def Search.freeStep (env : Env) (tally : Tally) (s : Search) : Tally × Progress :=
  s.revived.step env tally

/-- A small step of a join: one step of the last open search, and what comes of it. Nothing stops a join
here but the end of its searches. -/
inductive Join.Ticks (j : Join) : Cursor → Cursor → Prop where
  | goesOn {l : Level} {outer : List Level} {tally tally' : Tally} {s : Search}
    (h : l.search.freeStep j.env tally = (tally', .goesOn s)) :
    Ticks j ⟨l :: outer, tally⟩ ⟨{ l with search := s } :: outer, tally'⟩
  | closes {l : Level} {outer : List Level} {tally tally' : Tally}
    (h : l.search.freeStep j.env tally = (tally', .exhausted)) :
    Ticks j ⟨l :: outer, tally⟩ ⟨outer, tally'⟩
  | opens {l : Level} {outer : List Level} {tally tally' : Tally} {x : Solution} {s : Search}
    {p : Program} {later : List Program}
    (h : l.search.freeStep j.env tally = (tally', .found x s)) (hlater : l.later = p :: later) :
    Ticks j ⟨l :: outer, tally⟩
      ⟨⟨(Search.begin j.env tally' p x.bindings).2, later, l.before ++ [x.path]⟩ ::
        { l with search := s } :: outer, (Search.begin j.env tally' p x.bindings).1⟩
  | decides {l : Level} {outer : List Level} {tally tally' : Tally} {x : Solution} {s : Search}
    (h : l.search.freeStep j.env tally = (tally', .found x s)) (hlater : l.later = []) :
    Ticks j ⟨l :: outer, tally⟩ ⟨{ l with search := s } :: outer,
      if j.admits x.bindings (l.before ++ [x.path]) then tally'.yielded else tally'.pruned⟩

/-! ## Searches that are sustained -/

/-- Nothing on the agenda of a search, and nothing that its program starts, stops for want of slack. -/
structure Search.Sustained (env : Env) (s : Search) : Prop where
  program : s.program.IsSustained env
  agenda : ∀ c ∈ s.agenda, c.Sustained env s.program

namespace Search.Sustained

variable {env : Env} {tally : Tally} {s u : Search}

theorem freeStep_eq (h : s.Sustained env) : s.freeStep env tally = s.step env tally := by
  have hsame : s.revived = s := by
    unfold revived
    split
    · next t rest ha =>
      obtain ⟨hslack, -, -⟩ := h.agenda (.resume t) (ha ▸ List.mem_cons_self)
      have ht : { t with slack := t.slack - 1 + 1 } = t := by rw [hslack]; exact hslack ▸ rfl
      rw [ht, ← ha]
    · rfl
  rw [freeStep, hsame]

theorem of_step (h : s.Sustained env) (hu : (s.step env tally).2.search? = some u) :
    u.Sustained env := by
  have hu := continues_step hu
  refine ⟨hu.program ▸ h.program, fun c hc => ?_⟩
  rw [hu.program]
  rcases hu.agenda c hc with hc | ⟨d, hd, hc⟩ | ⟨v, rfl⟩
  · exact h.agenda c hc
  · exact .leadsTo hc (h.agenda d hd)
  · exact h.program ..

theorem begin {p : Program} (hp : p.IsSustained env) (tally : Tally) (base : Bindings) :
    (Search.begin env tally p base).2.Sustained env :=
  ⟨hp, fun _ hc => nomatch hc⟩

end Search.Sustained

/-! ## Joins that are sustained -/

/-- An open search is sustained, and so are the programs that come after it. -/
structure Level.Sustained (env : Env) (l : Level) : Prop where
  search : l.search.Sustained env
  later : ∀ p ∈ l.later, p.IsSustained env

def Cursor.Sustained (env : Env) (c : Cursor) : Prop :=
  ∀ l ∈ c.levels, l.Sustained env

namespace Join

variable {j : Join} {c d : Cursor}

/-- Every small step leads from a sustained cursor to a sustained one, which is smaller. -/
theorem Ticks.sustained (h : j.Ticks c d) (hc : c.Sustained j.env) :
    d.Sustained j.env ∧ Smaller d c := by
  have step {l : Level} {outer : List Level} {tally tally' : Tally} {s : Search} {progress : Progress}
      (hl : Cursor.Sustained j.env ⟨l :: outer, tally⟩)
      (h : l.search.freeStep j.env tally = (tally', progress)) (hs : progress.search? = some s) :
      Level.Sustained j.env { l with search := s } ∧ Level.Smaller { l with search := s } l := by
    have hsearch := (hl l List.mem_cons_self).search
    rw [hsearch.freeStep_eq] at h
    have hs' : (l.search.step j.env tally).2.search? = some s := by rw [h, hs]
    exact ⟨⟨hsearch.of_step hs', (hl l List.mem_cons_self).later⟩,
      .right _ (.single (Search.step_smaller hs'))⟩
  have swap {l l' : Level} {outer : List Level} {tally : Tally}
      (hc : Cursor.Sustained j.env ⟨l :: outer, tally⟩) (hl : l'.Sustained j.env) :
      ∀ m ∈ l' :: outer, m.Sustained j.env := fun m hm =>
    (List.mem_cons.mp hm).elim (fun hm => hm ▸ hl) fun hm => hc m (List.mem_cons_of_mem _ hm)
  cases h with
  | goesOn h =>
    obtain ⟨hl, hsmaller⟩ := step hc h rfl
    exact ⟨swap hc hl, .swap _ hsmaller⟩
  | closes h => exact ⟨fun m hm => hc m (List.mem_cons_of_mem _ hm), .pop _ _⟩
  | @opens l _ _ tally' x _ p later h hlater =>
    obtain ⟨hl, hsmaller⟩ := step hc h rfl
    have hprograms := (hc l List.mem_cons_self).later
    rw [hlater] at hprograms
    refine ⟨fun m hm => (List.mem_cons.mp hm).elim (fun hm => hm ▸ ?_) (swap hc hl m),
      .grow _ (.left _ _ (by simp [hlater])) hsmaller⟩
    exact ⟨.begin (hprograms p List.mem_cons_self) tally' _,
      fun q hq => hprograms q (List.mem_cons_of_mem _ hq)⟩
  | decides h hlater =>
    obtain ⟨hl, hsmaller⟩ := step hc h rfl
    exact ⟨swap hc hl, .swap _ hsmaller⟩

/-- Small steps from a sustained cursor do not go on for ever. -/
theorem not_ticks_forever (hc : c.Sustained j.env) :
    ¬∃ run : Nat → Cursor, run 0 = c ∧ ∀ n, j.Ticks (run n) (run (n + 1)) := by
  induction c using smaller_wf.induction with
  | _ c ih =>
    rintro ⟨run, rfl, hrun⟩
    obtain ⟨hnext, hsmaller⟩ := (hrun 0).sustained hc
    exact ih _ hsmaller hnext ⟨fun n => run (n + 1), rfl, fun n => hrun (n + 1)⟩

/-! ### Calls are made of small steps -/

open Relation (ReflTransGen)

/-- The steps of an open search on its way to its next solution, or to its end. -/
theorem ticks_search (l : Level) (outer : List Level) (tally : Tally) {s : Search}
    (h : s.Sustained j.env) :
    match s.next j.env tally with
    | (tally', none) => ReflTransGen j.Ticks ⟨{ l with search := s } :: outer, tally⟩ ⟨outer, tally'⟩
    | (tally', some (x, u)) => ∃ s' tally₀, s'.Sustained j.env ∧
        ReflTransGen j.Ticks ⟨{ l with search := s } :: outer, tally⟩
          ⟨{ l with search := s' } :: outer, tally₀⟩ ∧
        s'.freeStep j.env tally₀ = (tally', .found x u) := by
  induction s using Search.smaller_wf.induction generalizing tally with
  | _ s ih =>
    cases hs : s.step j.env tally with
    | mk tally' progress =>
      have hfree : s.freeStep j.env tally = (tally', progress) := h.freeStep_eq.trans hs
      cases progress with
      | exhausted =>
        rw [Search.next_exhausted hs]
        exact .single (.closes hfree)
      | found x u =>
        rw [Search.next_found hs]
        exact ⟨s, tally, h, .refl, hfree⟩
      | goesOn u =>
        rw [Search.next_goesOn hs]
        have hstep : (s.step j.env tally).2.search? = some u := by rw [hs]; rfl
        have hfirst : j.Ticks ⟨{ l with search := s } :: outer, tally⟩
            ⟨{ l with search := u } :: outer, tally'⟩ := .goesOn hfree
        have hrest := ih u (Search.step_smaller hstep) tally' (h.of_step hstep)
        cases hn : u.next j.env tally' with
        | mk last found =>
          rw [hn] at hrest
          cases found with
          | none => exact hrest.head hfirst
          | some next =>
            obtain ⟨s', tally₀, hs', hticks, hfound⟩ := hrest
            exact ⟨s', tally₀, hs', hticks.head hfirst, hfound⟩

theorem ticks_step (hc : c.Sustained j.env) (h : (j.step c).cursor? = some d) :
    ReflTransGen j.Ticks c d := by
  unfold step at h
  split at h
  · cases h
  · split at h
    · cases h
    · next l outer hl =>
      obtain ⟨levels, tally⟩ := c
      simp only at hl h
      subst hl
      have hsearch := ticks_search l outer tally (hc l List.mem_cons_self).search
      split at h
      · next tally' hn =>
        cases h
        rwa [hn] at hsearch
      · next tally' x u hn =>
        rw [hn] at hsearch
        obtain ⟨s', tally₀, -, hticks, hfound⟩ := hsearch
        split at h
        · next p later hlater =>
          cases h
          exact hticks.tail (.opens hfound hlater)
        · next hlater =>
          have hlast := hticks.tail (.decides hfound hlater)
          dsimp only at h hlast
          split at h <;> next hadmits => cases h; simpa [hadmits] using hlast

theorem sustained_of_ticks (hc : c.Sustained j.env) (h : ReflTransGen j.Ticks c d) :
    d.Sustained j.env := by
  induction h with
  | refl => exact hc
  | tail _ h ih => exact (h.sustained ih).1

theorem ticks_next (hc : c.Sustained j.env) : ReflTransGen j.Ticks c (j.next c).2 := by
  fun_induction next j c with
  | case1 c hs => exact .refl
  | case2 c m d hs => exact ticks_step hc (by rw [hs]; rfl)
  | case3 c d hs _ ih =>
    have hstep : ReflTransGen j.Ticks c d := ticks_step hc (by rw [hs]; rfl)
    exact hstep.trans (ih (sustained_of_ticks hc hstep))

theorem ticks_pull (hc : c.Sustained j.env) (n : Nat) : ReflTransGen j.Ticks c (j.pull n c).2 := by
  induction n generalizing c with
  | zero => exact .refl
  | succ n ih =>
    have hnext := ticks_next hc
    exact hnext.trans (ih (sustained_of_ticks hc hnext))

theorem exists_next_none (j : Join) (c : Cursor) : ∃ n, ∀ k, (j.next (j.pull (n + k) c).2).1 = none := by
  obtain ⟨n, -, hend⟩ := exists_pull_collect (j := j) #[] c
  have pull_add (n k : Nat) (c : Cursor) : (j.pull (n + k) c).2 = (j.pull k (j.pull n c).2).2 := by
    induction n generalizing c with
    | zero => rw [Nat.zero_add]; rfl
    | succ n ih =>
      rw [Nat.succ_add]
      exact ih _
  refine ⟨n, fun k => ?_⟩
  have hover := next_exhausted (step_of_next_none (j := j) (c := (j.pull n c).2) (by rw [hend]))
  rw [pull_add]
  cases k with
  | zero => rw [pull, hend]
  | succ k =>
    have hstays := pull_of_next_none (j := j) (c := (j.pull n c).2) (by rw [hend]) k
    simp only [pull, hstays, hover]

end Join

/-! ## Patterns -/

theorem GraphPattern.search_sustained {g : GraphPattern} {env : Env} {j : Join} {c : Cursor}
    (h : g.search env = .ok (j, c)) : c.Sustained j.env := by
  unfold search at h
  cases hv : g.validate env.store env.config.strictCatalog env.seed.kinds with
  | error e => rw [hv] at h; cases h
  | ok kinds =>
    rw [hv] at h
    cases h
    have hall : ∀ p ∈ g.paths.map Program.compile, p.IsSustained env := fun p hp => by
      obtain ⟨q, -, rfl⟩ := List.mem_map.mp hp
      exact q.isSustained env
    cases hp : g.paths.map Program.compile with
    | nil => exact fun l hl => nomatch hl
    | cons p later =>
      rw [hp] at hall
      intro l hl
      rw [List.mem_singleton.mp hl]
      exact ⟨.begin (hall p List.mem_cons_self) {} [], fun q hq => hall q (List.mem_cons_of_mem _ hq)⟩

/-- **The search of a pattern ends.** Small steps that nothing counts do not go on for ever, whatever the
pattern repeats; all calls are made of such steps; and after some number of calls no later one hands out
anything. -/
theorem GraphPattern.search_ends {g : GraphPattern} {env : Env} {join : Join} {cursor : Cursor}
    (h : g.search env = .ok (join, cursor)) :
    (¬∃ run : Nat → Cursor, run 0 = cursor ∧ ∀ n, join.Ticks (run n) (run (n + 1))) ∧
      (∀ n, Relation.ReflTransGen join.Ticks cursor (join.pull n cursor).2) ∧
      ∃ n, ∀ k, (join.next (join.pull (n + k) cursor).2).1 = none :=
  ⟨Join.not_ticks_forever (search_sustained h), Join.ticks_pull (search_sustained h),
    Join.exists_next_none join cursor⟩

/-- Two unbounded quantifiers, one around the other, over a body that takes no edge. -/
theorem search_ends_hop :
    let any : Quantifier := .zeroOrMore
    let inner : Element := .group none none (.term [.mk (.node {}) none]) none
    let outer : Element := .group none none (.term [.mk inner (some any)]) none
    let g : GraphPattern := { paths := [{ expr := .term [.mk outer (some any)] }] }
    let env : Env := ⟨Graph.hop.store, {}, []⟩
    ∃ join cursor, g.search env = .ok (join, cursor) ∧
      (¬∃ run : Nat → Cursor, run 0 = cursor ∧ ∀ n, join.Ticks (run n) (run (n + 1))) ∧
      (∀ n, Relation.ReflTransGen join.Ticks cursor (join.pull n cursor).2) ∧
      ∃ n, ∀ k, (join.next (join.pull (n + k) cursor).2).1 = none := by
  intro any inner outer g env
  have h : g.search env = .ok (g.join env, (g.join env).begin (g.paths.map Program.compile)) := rfl
  exact ⟨_, _, h, GraphPattern.search_ends h⟩

end GraphPatterns
