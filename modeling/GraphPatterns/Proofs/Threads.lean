/-
The threads that a search runs. A step of a search leaves on its agenda what lay there, puts what comes of
the first choice in its place, or starts a thread (`Search.continues_step`). So a property of choices that
holds of the threads that start, and that a choice hands on to those that come of it, holds of all that a
search ever has on its agenda (`Search.Reached.agenda`).
-/
import GraphPatterns.Proofs.Outcomes

namespace GraphPatterns

/-- The choices that an effect puts on the agenda. -/
def Effect.choices (env : Env) : Effect → List Choice
  | .threads ts => ts.map .resume
  | .wantsEdge t pattern grouped room =>
    [.extend t pattern grouped room (env.store.neighbors t.walk.current pattern.direction)]
  | _ => []

/-! ## What comes of a choice -/

namespace Choice

/-- The thread of a choice. -/
def thread : Choice → Thread
  | .resume t => t
  | .extend t _ _ _ _ => t

/-- One choice comes of another: by an instruction, over an edge, or by leaving an edge out. -/
inductive LeadsTo (env : Env) (p : Program) : Choice → Choice → Prop where
  | runs {t : Thread} {slack : Nat} {i : Inst} {c : Choice} (hslack : t.slack = slack + 1)
    (hi : p.code[t.pc]? = some i) (hc : c ∈ ({ t with slack := slack }.execute env i).choices env) :
    LeadsTo env p (.resume t) c
  | crosses {t : Thread} {pattern : EdgePattern} {grouped : Bool} {room : Nat}
    {edge : EdgeId × VertexId} {candidates : List (EdgeId × VertexId)}
    (h : mayCross env p t pattern grouped edge = true) :
    LeadsTo env p (.extend t pattern grouped room (edge :: candidates))
      (.resume (t.cross pattern grouped edge.1 edge.2 room p.idle))
  | skips (t : Thread) (pattern : EdgePattern) (grouped : Bool) (room : Nat)
    (edge : EdgeId × VertexId) (candidates : List (EdgeId × VertexId)) :
    LeadsTo env p (.extend t pattern grouped room (edge :: candidates))
      (.extend t pattern grouped room candidates)

variable {env : Env} {p : Program} {c d : Choice}

theorem Invariant.leadsTo {I : Thread → Prop} (hI : Invariant env p I) (h : LeadsTo env p c d)
    (hc : c.Carries env p I) : d.Carries env p I := by
  cases h with
  | @runs t slack i _ hslack hi hd =>
    have ht : I { t with slack := slack } := hI.slack slack hc
    cases he : { t with slack := slack }.execute env i with
    | threads ts =>
      rw [he] at hd
      obtain ⟨u, hu, rfl⟩ := List.mem_map.mp hd
      exact hI.execute ht hi he hu
    | wantsEdge u pattern grouped room =>
      rw [he] at hd
      obtain ⟨rfl, hroom, rfl⟩ := Thread.execute_wantsEdge he
      obtain rfl := List.mem_singleton.mp hd
      exact ⟨ht, hi, hroom, fun _ hedge => hedge⟩
    | pruned => rw [he] at hd; cases hd
    | blocked => rw [he] at hd; cases hd
    | accepted u => rw [he] at hd; cases hd
  | crosses hmay =>
    obtain ⟨ht, hi, hroom, hsub⟩ := hc
    exact hI.cross ht hi hroom (hsub List.mem_cons_self) hmay
  | skips =>
    obtain ⟨ht, hi, hroom, hsub⟩ := hc
    exact ⟨ht, hi, hroom, fun e he => hsub (List.mem_cons_of_mem _ he)⟩

theorem LeadsTo.outcomes_subset (h : LeadsTo env p c d) : d.outcomes env p ⊆ c.outcomes env p := by
  cases h with
  | @runs t slack i _ hslack hi hd =>
    rw [outcomes_resume hslack hi]
    cases he : { t with slack := slack }.execute env i with
    | threads ts =>
      rw [he] at hd
      obtain ⟨u, hu, rfl⟩ := List.mem_map.mp hd
      exact fun o ho => List.mem_flatMap.mpr ⟨u, hu, ho⟩
    | wantsEdge u pattern grouped room =>
      rw [he] at hd
      obtain rfl := List.mem_singleton.mp hd
      exact fun o ho => ho
    | pruned => rw [he] at hd; cases hd
    | blocked => rw [he] at hd; cases hd
    | accepted u => rw [he] at hd; cases hd
  | crosses hmay =>
    rw [outcomes_extend_cons, if_pos hmay]
    exact List.subset_append_left _ _
  | skips =>
    rw [outcomes_extend_cons]
    exact List.subset_append_right _ _

end Choice

/-! ## A step of a search -/

namespace Search

/-- What a step does to a search. -/
structure Continues (env : Env) (s u : Search) : Prop where
  program : u.program = s.program
  base : u.base = s.base
  agenda : ∀ c ∈ u.agenda, c ∈ s.agenda ∨
    (∃ d ∈ s.agenda, Choice.LeadsTo env s.program d c) ∨
      ∃ v, c = .resume (.start v s.base s.limit s.program.idle)
  /-- The rounds go on to longer paths, one edge at a time; a new one has no thread yet. -/
  rounds : u.limit = s.limit ∧ u.deeper = s.deeper ∨
    u.agenda = [] ∧ u.blocked = false ∧ u.limit = s.limit + 1 ∧ s.deeper = u.deeper + 1
  /-- A round is blocked by a thread at an edge that it has no room for. -/
  blocked : u.blocked = true → s.blocked = true ∨
    ∃ t pattern grouped, .resume t ∈ s.agenda ∧ t.room = 0 ∧
      s.program.code[t.pc]? = some (.edge pattern grouped)

variable {env : Env} {tally : Tally} {s u : Search} {c : Choice} {rest : List Choice}

theorem Continues.replace (ha : s.agenda = c :: rest) (news : List Choice)
    (hnews : ∀ d ∈ news, c.LeadsTo env s.program d) (judge : Judge) (finished : Bool) :
    Continues env s { s with agenda := news ++ rest, judge := judge, finished := finished } where
  program := rfl
  base := rfl
  agenda d hd := by
    rcases List.mem_append.mp hd with hd | hd
    · exact .inr (.inl ⟨c, ha ▸ List.mem_cons_self, hnews d hd⟩)
    · exact .inl (ha ▸ List.mem_cons_of_mem _ hd)
  rounds := .inl ⟨rfl, rfl⟩
  blocked := .inl

theorem Continues.pop (ha : s.agenda = c :: rest) (judge : Judge) (finished : Bool) :
    Continues env s { s with agenda := rest, judge := judge, finished := finished } :=
  .replace ha [] (fun _ hd => nomatch hd) judge finished

/-- Only an edge without room for it blocks a thread. -/
theorem blocked_of_execute {t : Thread} {i : Inst} (h : t.execute env i = .blocked) :
    t.room = 0 ∧ ∃ pattern grouped, i = .edge pattern grouped := by
  cases i with
  | edge pattern grouped =>
    refine ⟨?_, pattern, grouped, rfl⟩
    simp only [Thread.execute] at h
    split at h
    · next hroom => exact hroom
    · cases h
  | node pattern grouped =>
    simp only [Thread.execute, Thread.executeNode] at h
    split at h <;> cases h
  | loop lower upper ahead =>
    simp only [Thread.execute, Thread.executeLoop] at h
    split at h <;> (try split at h) <;> (try split at h) <;> cases h
  | again lower back =>
    simp only [Thread.execute, Thread.executeAgain] at h
    split at h <;> (try split at h) <;> cases h
  | closeGroup name condition grouped =>
    simp only [Thread.execute, Thread.executeCloseGroup] at h
    split at h <;> (try split at h) <;> cases h
  | _ => cases h

theorem continues_resume {t : Thread} (ha : s.agenda = .resume t :: rest)
    (hu : (s.resume env tally t rest).2.search? = some u) : Continues env s u := by
  unfold resume at hu
  split at hu
  · next slack i hslack hi =>
    split at hu
    · next ts he =>
      cases hu
      exact .replace ha _ (fun c hc => .runs hslack hi (he ▸ hc)) _ _
    · cases hu
      exact .pop ha _ _
    · next he =>
      obtain ⟨hroom, pattern, grouped, rfl⟩ := blocked_of_execute he
      cases hu
      have hpop : Continues env s { s with agenda := rest } := .pop ha s.judge s.finished
      exact { hpop with
        rounds := .inl ⟨rfl, rfl⟩
        blocked := fun _ => .inr ⟨t, pattern, grouped, ha ▸ List.mem_cons_self, hroom, hi⟩ }
    · next v pattern grouped room he =>
      cases hu
      exact .replace ha [_] (fun c hc => .runs hslack hi (he ▸ hc)) _ _
    · unfold accept at hu
      dsimp only at hu
      split at hu
      · cases hu
        exact .pop ha _ _
      · split at hu
        · cases hu
          exact .pop ha _ _
        · split at hu <;> cases hu <;> exact .pop ha _ _
  · cases hu
    exact .pop ha _ _

theorem continues_expand {t : Thread} {pattern : EdgePattern} {grouped : Bool} {room : Nat}
    {edge : EdgeId × VertexId} {candidates : List (EdgeId × VertexId)}
    (ha : s.agenda = .extend t pattern grouped room (edge :: candidates) :: rest)
    (hu : (s.expand env tally t pattern grouped room edge candidates rest).2.search? = some u) :
    Continues env s u := by
  unfold expand at hu
  dsimp only at hu
  split at hu
  · cases hu
  · split at hu
    · next hmay =>
      cases hu
      refine .replace ha [_, _] (fun c hc => ?_) _ _
      simp only [List.mem_cons, List.not_mem_nil, or_false] at hc
      rcases hc with rfl | rfl
      · exact .crosses hmay
      · exact .skips ..
    · cases hu
      exact .replace ha [_] (fun c hc => List.mem_singleton.mp hc ▸ .skips ..) _ _

theorem continues_nextRound (ha : s.agenda = [])
    (hu : (s.nextRound env tally).2.search? = some u) : Continues env s u := by
  unfold nextRound at hu
  dsimp only at hu
  split at hu
  · cases hu
  · split at hu
    · cases hu
    · split at hu
      · cases hu
      · next deeper hdeeper =>
        cases hu
        exact ⟨rfl, rfl, fun c hc => .inl hc, .inr ⟨ha, rfl, rfl, hdeeper⟩, nofun⟩

/-- **What a step of a search does.** -/
theorem continues_step (hu : (s.step env tally).2.search? = some u) : Continues env s u := by
  unfold step at hu
  split at hu
  · cases hu
  · split at hu
    · next ha => exact continues_resume ha hu
    · next ha => exact continues_expand ha hu
    · next ha =>
      cases hu
      exact .pop ha _ _
    · next ha =>
      split at hu
      · cases hu
        refine ⟨rfl, rfl, fun c hc => .inr (.inr ⟨_, List.mem_singleton.mp hc⟩), .inl ⟨rfl, rfl⟩, .inl⟩
      · exact continues_nextRound ha hu

/-! ## Searches that are reached -/

/-- The searches that a search for a program comes to, whatever was done before it and whoever asks it for
solutions. -/
inductive Reached (env : Env) (p : Program) (base : Bindings) : Search → Prop where
  | begin (tally : Tally) : Reached env p base (Search.begin env tally p base).2
  | step {s u : Search} (tally : Tally) (h : Reached env p base s)
    (hu : (s.step env tally).2.search? = some u) : Reached env p base u

namespace Reached

variable {p : Program} {base : Bindings}

theorem program (h : Reached env p base s) : s.program = p := by
  induction h with
  | begin => rfl
  | step _ _ hu ih => exact (continues_step hu).program.trans ih

theorem base_eq (h : Reached env p base s) : s.base = base := by
  induction h with
  | begin => rfl
  | step _ _ hu ih => exact (continues_step hu).base.trans ih

/-- The rounds that are left lead to paths of the greatest length that is allowed. -/
theorem limit_add_deeper (h : Reached env p base s) :
    s.limit + s.deeper = env.config.maxPathLength := by
  induction h with
  | begin =>
    simp only [Search.begin]
    split <;> omega
  | step _ _ hu ih =>
    rcases (continues_step hu).rounds with ⟨hl, hd⟩ | ⟨-, -, hl, hd⟩ <;> omega

/-- A search that is not for shortest paths has one round. -/
theorem deeper_eq (hp : p.selector.isShortest = false) (h : Reached env p base s) :
    s.deeper = 0 := by
  induction h with
  | begin => simp [Search.begin, hp]
  | step _ _ hu ih =>
    rcases (continues_step hu).rounds with ⟨-, hd⟩ | ⟨-, -, -, hd⟩ <;> omega

/-- **What a search has on its agenda** has every property that the threads have that start, and that each
choice hands on to what comes of it. -/
theorem agenda {P : Choice → Prop} (h : Reached env p base s)
    (hstart : ∀ v, ∀ limit ≤ env.config.maxPathLength, P (.resume (.start v base limit p.idle)))
    (hstep : ∀ c d, c.LeadsTo env p d → P c → P d) : ∀ c ∈ s.agenda, P c := by
  induction h with
  | begin => exact fun c hc => nomatch hc
  | @step s u tally h hu ih =>
    intro c hc
    rcases (continues_step hu).agenda c hc with hc | ⟨d, hd, hc⟩ | ⟨v, rfl⟩
    · exact ih c hc
    · exact hstep d c (h.program ▸ hc) (ih d hd)
    · rw [h.base_eq, h.program]
      have := h.limit_add_deeper
      exact hstart v s.limit (by omega)

theorem carries {I : Thread → Prop} (hI : Choice.Invariant env p I) (h : Reached env p base s)
    (hstart : ∀ v, ∀ limit ≤ env.config.maxPathLength, I (.start v base limit p.idle)) :
    ∀ c ∈ s.agenda, c.Carries env p I :=
  h.agenda hstart fun _ _ hcd hc => hI.leadsTo hcd hc

/-- The walks of a round may become as long as its limit. -/
theorem length_add_room (h : Reached env p base s) :
    ∀ c ∈ s.agenda, c.Carries env p fun t => t.walk.length + t.room = s.limit := by
  induction h with
  | begin => exact fun c hc => nomatch hc
  | @step s u tally h hu ih =>
    have hu := continues_step hu
    rcases hu.rounds with ⟨hlimit, -⟩ | ⟨hnone, -⟩
    · intro c hc
      rw [hlimit]
      rcases hu.agenda c hc with hc | ⟨d, hd, hc⟩ | ⟨v, rfl⟩
      · exact ih c hc
      · exact (Choice.invariant_limit env p s.limit).leadsTo (h.program ▸ hc) (ih d hd)
      · exact Nat.zero_add _
    · exact fun c hc => nomatch hnone ▸ hc

end Reached

end Search

end GraphPatterns
