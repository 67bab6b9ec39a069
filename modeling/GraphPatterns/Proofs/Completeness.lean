/-
Matches that are not cut off are all there are. Where no thread was blocked, a larger limit on the
length of paths changes no outcome; and a search for shortest paths that ends before its last round ends
in the same round under a larger limit. So a join whose flag is not set finds the same matches under any
larger limit (`GraphPattern.matches_complete`).
-/
import GraphPatterns.Proofs.Deepening
import GraphPatterns.Proofs.NestedLoop
import GraphPatterns.Proofs.Refinement

namespace GraphPatterns

/-- The same surroundings with another limit on the length of paths. -/
def Env.withCap (env : Env) (cap : Nat) : Env :=
  { env with config := { env.config with maxPathLength := cap } }

/-- A selector under which a search that sets no flag has come to its end: one for all paths, one for
shortest paths, or any if there is a choice for each pair of endpoints. -/
def Selector.IsThorough (selector : Selector) (scope : SearchScope) : Prop :=
  selector = .all ∨ selector.isShortest = true ∨ scope = .perEndpoints

/-! ## The limit and the steps of a search -/

/-- A choice does not see the greatest length that paths may have, only the room that is left. -/
theorem Choice.outcomes_withCap (env : Env) (cap : Nat) (p : Program) (c : Choice) :
    c.outcomes (env.withCap cap) p = c.outcomes env p := by
  have hexecute (t : Thread) (i : Inst) : t.execute (env.withCap cap) i = t.execute env i := by
    cases i <;> rfl
  exact @outcomes_congr env (env.withCap cap) p p rfl rfl rfl hexecute (fun _ _ _ _ => rfl) c

namespace Program

variable {p : Program} {env : Env} {base : Bindings}

theorem outcomes_withCap (cap limit : Nat) :
    p.outcomes (env.withCap cap) base limit = p.outcomes env base limit :=
  List.flatMap_congr fun _ _ => Choice.outcomes_withCap ..

theorem rounds_withCap (cap deeper limit : Nat) (judge : Judge) :
    p.rounds (env.withCap cap) base deeper limit judge = p.rounds env base deeper limit judge := by
  have hfound (limit : Nat) (judge : Judge) :
      p.found (env.withCap cap) base limit judge = p.found env base limit judge := by
    rw [found, found, outcomes_withCap]
    rfl
  have hlonger (limit : Nat) (judge : Judge) :
      p.wantsLonger (env.withCap cap) base limit judge = p.wantsLonger env base limit judge := by
    rw [wantsLonger, wantsLonger, outcomes_withCap]
    rfl
  induction deeper generalizing limit judge with
  | zero => rw [rounds, rounds, hfound, hlonger]
  | succ deeper ih => rw [rounds, rounds, hfound, hlonger, ih]

theorem rounds_add {deeper limit : Nat} {judge : Judge} (k : Nat)
    (h : (p.rounds env base deeper limit judge).2 = false) :
    p.rounds env base (deeper + k) limit judge = p.rounds env base deeper limit judge := by
  induction deeper generalizing limit judge with
  | zero =>
    have hw : p.wantsLonger env base limit (p.found env base limit judge).2 = false := h
    cases k with
    | zero => rfl
    | succ k =>
      rw [Nat.zero_add, rounds, rounds, hw]
      rfl
  | succ deeper ih =>
    rw [Nat.add_right_comm, rounds, rounds]
    rw [rounds] at h
    split
    · next hw =>
      rw [if_pos hw] at h
      rw [ih h]
    · rfl

/-- Where a search cuts nothing off, it finds the same under a larger limit. -/
theorem solutions_withCap {cap : Nat} (hmax : env.config.maxSteps = none)
    (hp : p.selector.IsThorough env.config.searchScope) (hcap : env.config.maxPathLength ≤ cap)
    (hcut : p.isCut env base = false) :
    p.solutions (env.withCap cap) base = p.solutions env base := by
  cases ht : (Search.fresh env p).terminated with
  | true => rw [(p.solutions_of_terminated env base ht).1,
    (p.solutions_of_terminated (env.withCap cap) base ht).1]
  | false =>
    have ht' : (Search.fresh (env.withCap cap) p).terminated = false := ht
    cases hshort : p.selector.isShortest with
    | true =>
      have hwide := p.solutions_shortest env base hmax hshort ht
      have hwider := p.solutions_shortest (env.withCap cap) base hmax hshort ht'
      by_cases hmin : env.config.maxPathLength < p.minLength
      · rw [if_pos hmin, hcut] at hwide
        cases congrArg Prod.snd hwide
      · have hmin' : ¬(env.withCap cap).config.maxPathLength < p.minLength :=
          fun h => hmin (Nat.lt_of_le_of_lt hcap h)
        rw [if_neg hmin, hcut] at hwide
        rw [if_neg hmin', rounds_withCap] at hwider
        have hstop := congrArg Prod.snd hwide
        obtain ⟨k, hk⟩ : ∃ k, (env.withCap cap).config.maxPathLength - p.minLength =
            env.config.maxPathLength - p.minLength + k :=
          ⟨cap - env.config.maxPathLength, by simp only [Env.withCap]; omega⟩
        rw [hk, show (p.judge (env.withCap cap)) = p.judge env from rfl,
          rounds_add k hstop.symm] at hwider
        exact (congrArg Prod.fst hwider).trans (congrArg Prod.fst hwide).symm
    | false =>
      obtain ⟨hwide, hflag⟩ := p.solutions_plain env base hmax hshort ht
      obtain ⟨hwider, -⟩ := p.solutions_plain (env.withCap cap) base hmax hshort ht'
      have hends : (p.judge env).NeverEnds := by
        refine Judge.neverEnds_start ?_
        rcases hp with hall | hshort' | hscope
        · exact .inr ⟨hall, ht⟩
        · rw [hshort] at hshort'
          cases hshort'
        · exact .inl hscope
      rw [hflag (hends.sift _ _).isDone] at hcut
      obtain ⟨k, hk⟩ : ∃ k, (env.withCap cap).config.maxPathLength = env.config.maxPathLength + k :=
        ⟨cap - env.config.maxPathLength, by simp only [Env.withCap]; omega⟩
      rw [hk, outcomes_withCap, outcomes_add k hcut] at hwider
      have hsame : p.candidates (env.withCap cap)
          ((p.outcomes env base env.config.maxPathLength).map (·.deepen k)) =
          p.candidates env (p.outcomes env base env.config.maxPathLength) :=
        candidates_deepen k hshort _
      rw [hsame] at hwider
      exact hwider.trans hwide.symm

end Program

/-! ## Joins -/

theorem Join.results_withCap {j : Join} {cap : Nat} {programs : List Program} {bindings : Bindings}
    {paths : List Path} (hmax : j.env.config.maxSteps = none)
    (hp : ∀ p ∈ programs, p.selector.IsThorough j.env.config.searchScope)
    (hcap : j.env.config.maxPathLength ≤ cap) (hcut : j.isCut programs bindings = false) :
    Join.results { j with env := j.env.withCap cap } programs bindings paths =
      j.results programs bindings paths := by
  induction programs generalizing bindings paths with
  | nil => rfl
  | cons p later ih =>
    simp only [isCut, Bool.or_eq_false_iff, List.any_eq_false, Bool.not_eq_true] at hcut
    rw [results, results, Program.solutions_withCap hmax (hp p (by simp)) hcap hcut.1]
    exact List.flatMap_congr fun x hx => ih (fun q hq => hp q (by simp [hq])) (hcut.2 x hx)

/-- **Matches that are not cut off are all there are.** If the search for a pattern ends without a sign
that a limit cut off results, it finds the same matches under any larger limit on the length of paths. -/
theorem GraphPattern.matches_complete (g : GraphPattern) (env : Env) (cap : Nat)
    {found : List Match} {tally : Tally} (hmax : env.config.maxSteps = none)
    (hp : ∀ p ∈ g.paths, p.selectorInForce.IsThorough env.config.searchScope)
    (hcap : env.config.maxPathLength ≤ cap) (hfound : g.matches env = .ok (found, tally))
    (hcut : tally.truncated = false) : ∃ tally', g.matches (env.withCap cap) = .ok (found, tally') := by
  have hwide := g.matches_eq env hmax
  have hwider := g.matches_eq (env.withCap cap) hmax
  have hsame : g.validate (env.withCap cap).store (env.withCap cap).config.strictCatalog
    (env.withCap cap).seed.kinds = g.validate env.store env.config.strictCatalog env.seed.kinds := rfl
  rw [hsame] at hwider
  rw [hfound] at hwide
  cases hv : g.validate env.store env.config.strictCatalog env.seed.kinds with
  | error e => rw [hv] at hwide; cases hwide
  | ok kinds =>
    rw [hv] at hwide hwider
    obtain ⟨hall, hflag⟩ := Prod.mk.inj (Except.ok.inj hwide)
    have hresults : (g.join (env.withCap cap)).all (g.paths.map .compile) = found := by
      refine Eq.trans ?_ hall.symm
      rw [Join.all, Join.all]
      split
      · rfl
      · refine Join.results_withCap hmax (fun p hmem => ?_) hcap (hflag.symm.trans hcut)
        obtain ⟨q, hq, rfl⟩ := List.mem_map.mp hmem
        exact hp q hq
    cases hm : g.matches (env.withCap cap) with
    | error e => rw [hm] at hwider; cases hwider
    | ok r =>
      rw [hm] at hwider
      have hr : r.1 = found := (Prod.mk.inj (Except.ok.inj hwider)).1.trans hresults
      exact ⟨r.2, congrArg Except.ok (Prod.ext hr rfl)⟩

/-- A path over an edge. -/
def PathPattern.hop : PathPattern :=
  { expr := .term [.mk (.node {}) none, .mk (.edge { direction := .right }) none, .mk (.node {}) none] }

theorem outcomes_hop :
    (Program.compile .hop).outcomes ⟨Graph.hop.store, { maxPathLength := 1 }, []⟩ [] 1 =
      [.arrives ⟨3, ⟨⟨1⟩, [(⟨1⟩, ⟨2⟩)]⟩, [], [], [], [], 0, 2⟩] := by
  let p := Program.compile .hop
  let env : Env := ⟨Graph.hop.store, { maxPathLength := 1 }, []⟩
  have hnode (t : Thread) {slack : Nat} (hs : t.slack = slack + 1)
      (hi : p.code[t.pc]? = some (.node {} false)) : (Choice.resume t).outcomes env p =
        (Choice.resume { t with slack := slack, pc := t.pc + 1 }).outcomes env p :=
    (Choice.outcomes_resume hs hi).trans (List.append_nil _)
  have hstart (v : VertexId) : (Choice.resume (.start v [] 1 p.idle)).outcomes env p =
      (Choice.extend { Thread.start v [] 1 2 with pc := 1 } { direction := .right } false 0
        (env.store.neighbors v .right)).outcomes env p :=
    (hnode _ rfl rfl).trans ((Choice.outcomes_resume rfl rfl).trans rfl)
  have hend : (Choice.resume ⟨2, ⟨⟨1⟩, [(⟨1⟩, ⟨2⟩)]⟩, [], [], [], [], 0, 4⟩).outcomes env p =
      [.arrives ⟨3, ⟨⟨1⟩, [(⟨1⟩, ⟨2⟩)]⟩, [], [], [], [], 0, 2⟩] :=
    (hnode _ rfl rfl).trans ((Choice.outcomes_resume rfl rfl).trans rfl)
  change (Choice.resume (.start ⟨1⟩ [] 1 p.idle)).outcomes env p ++
    ((Choice.resume (.start ⟨2⟩ [] 1 p.idle)).outcomes env p ++ []) = _
  rw [hstart, hstart, Choice.outcomes_extend, Choice.outcomes_extend]
  exact (congrArg (· ++ [] ++ []) hend)

/-- The edge takes the greatest length there is, and from where it leads there is no other to be crossed:
nothing is cut off. -/
theorem matches_complete_hop :
    let g : GraphPattern := { paths := [.hop] }
    let env : Env := ⟨Graph.hop.store, { maxPathLength := 1 }, []⟩
    let path : Path := ⟨[⟨1⟩, ⟨2⟩], [⟨1⟩]⟩
    ∃ tally, g.matches env = .ok ([⟨[], [path]⟩], tally) ∧ tally.truncated = false ∧
      ∃ tally', g.matches (env.withCap 7) = .ok ([⟨[], [path]⟩], tally') := by
  intro g env path
  let p := Program.compile .hop
  obtain ⟨hfound, hflag⟩ := p.solutions_plain env [] rfl rfl rfl
  rw [show env.config.maxPathLength = 1 from rfl, outcomes_hop] at hfound hflag
  have hsolutions : p.solutions env [] = [⟨[], path⟩] := hfound
  have hcut : p.isCut env [] = false := hflag rfl
  have hall : (g.join env).all [p] = [⟨[], [path]⟩] := by
    have hloop : (g.join env).all [p] = (p.solutions env []).flatMap fun x =>
      (g.join env).results [] x.bindings [x.path] := rfl
    rw [hloop, hsolutions]
    rfl
  have hnone : (g.join env).isCut [p] [] = false := by
    have hloop : (g.join env).isCut [p] [] = (p.isCut env [] || (p.solutions env []).any fun x =>
      (g.join env).isCut [] x.bindings) := rfl
    rw [hloop, hsolutions, hcut]
    rfl
  have hm : (g.matches env).map (fun r => (r.1, r.2.truncated)) = .ok (_, _) :=
    g.matches_eq env rfl
  rw [show g.paths.map Program.compile = [p] from rfl, hall, hnone] at hm
  cases hr : g.matches env with
  | error e => rw [hr] at hm; cases hm
  | ok r =>
    rw [hr] at hm
    obtain ⟨hr₁, hr₂⟩ := Prod.mk.inj (Except.ok.inj hm)
    have hok : Except.ok (ε := PatternError) r = Except.ok ([⟨[], [path]⟩], r.2) :=
      congrArg Except.ok (Prod.ext hr₁ rfl)
    refine ⟨r.2, hok, hr₂, ?_⟩
    refine g.matches_complete env 7 rfl (fun q hq => ?_) (Nat.le_of_ble_eq_true rfl) (hr.trans hok) hr₂
    obtain rfl := List.mem_singleton.mp hq
    exact .inl rfl

end GraphPatterns
