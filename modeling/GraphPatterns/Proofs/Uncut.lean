/-
What a search leaves out because of its length. A search for shortest paths starts with the least length
of its program; the rounds before it would find nothing (`PathPattern.solutions_fromZero`). And if no match
can be longer than the greatest length allowed, a round that is blocked is not the last one, so nothing is
reported to be cut off (`PathPattern.isCut_eq_false`).
-/
import GraphPatterns.Proofs.LengthLimits
import GraphPatterns.Proofs.NestedLoop
import GraphPatterns.Proofs.Selected
import GraphPatterns.Proofs.StepCap
import GraphPatterns.Proofs.Validity

namespace GraphPatterns

/-! ## The first round -/

namespace Program

variable {p : Program} {env : Env} {base : Bindings}

/-- The end of a length changes nothing as long as nothing has been offered. -/
theorem endLength_judge (p : Program) (env : Env) (length : Nat) :
    (p.judge env).endLength length = p.judge env := by
  rw [judge]
  cases env.config.searchScope with
  | overall => simp [Judge.start, Judge.endLength, Controller.endLength, Search.fresh, Controller.start]
  | perEndpoints => rfl

theorem rounds_nil {deeper limit : Nat}
    (h : ∀ l, limit ≤ l → l ≤ limit + deeper → p.offered env base l = []) (judge : Judge) :
    (p.rounds env base deeper limit judge).1 = [] := by
  have hfound (l : Nat) (judge : Judge) (hl : p.offered env base l = []) :
      (p.found env base l judge).1 = [] := by
    rw [found, show p.candidates env (p.outcomes env base l) = [] from hl]
    rfl
  induction deeper generalizing limit judge with
  | zero => exact hfound limit judge (h limit (Nat.le_refl _) (Nat.le_refl _))
  | succ deeper ih =>
    have hnone := hfound limit judge (h limit (Nat.le_refl _) (by omega))
    rw [rounds]
    dsimp only
    split
    · rw [hnone, ih fun l hl hle => h l (by omega) (by omega)]
      rfl
    · exact hnone

theorem rounds_skip (hp : p.selector.isShortest = true)
    (ht : (Search.fresh env p).terminated = false) (deeper limit n : Nat)
    (h : ∀ l, limit ≤ l → l < limit + n → p.offered env base l = []) :
    (p.rounds env base (deeper + n) limit (p.judge env)).1 =
      (p.rounds env base deeper (limit + n) (p.judge env)).1 := by
  induction n generalizing limit with
  | zero => rfl
  | succ n ih =>
    have hfound : p.found env base limit (p.judge env) = ([], p.judge env) := by
      rw [found, show p.candidates env (p.outcomes env base limit) = [] from
        h limit (Nat.le_refl _) (by omega)]
      exact Prod.ext rfl (p.endLength_judge env limit)
    have hlater := ih (limit + 1) fun l hl hlt => h l (by omega) (by omega)
    rw [show deeper + (n + 1) = deeper + n + 1 by omega, rounds, hfound]
    dsimp only
    split
    · rw [List.nil_append, hlater, show limit + 1 + n = limit + (n + 1) by omega]
    · next hw =>
      -- The choice has not begun, so the search ends because no thread was blocked.
      have hopen : (p.judge env).isDone = false ∧
          (p.judge env).isDoneForAll ((startVertices env p base).length * env.store.vertices.length) =
            false := by
        rw [judge]
        cases env.config.searchScope with
        | overall => exact ⟨ht, rfl⟩
        | perEndpoints => exact ⟨rfl, rfl⟩
      have hblocked : Outcome.anyBlocked (p.outcomes env base limit) = false := by
        simpa [wantsLonger, hopen] using hw
      refine (rounds_nil (fun l hl _ => ?_) _).symm
      obtain ⟨k, rfl⟩ := Nat.exists_eq_add_of_le (show limit + 1 ≤ l by omega)
      rw [Nat.add_assoc]
      exact offered_add_nil hp hblocked (by omega)

/-- The same program, of which nothing is known about its least length. -/
def fromZero (p : Program) : Program := { p with minLength := 0 }

@[simp] theorem minLength_fromZero : p.fromZero.minLength = 0 := rfl

theorem outcomes_fromZero (limit : Nat) :
    p.fromZero.outcomes env base limit = p.outcomes env base limit :=
  List.flatMap_congr fun _ _ =>
    @Choice.outcomes_congr env env p p.fromZero rfl rfl rfl (fun _ _ => rfl) (fun _ _ _ _ => rfl) _

theorem rounds_fromZero (deeper limit : Nat) (judge : Judge) :
    p.fromZero.rounds env base deeper limit judge = p.rounds env base deeper limit judge := by
  have hfound (limit : Nat) (judge : Judge) :
      p.fromZero.found env base limit judge = p.found env base limit judge := by
    rw [found, outcomes_fromZero]
    rfl
  have hwants (limit : Nat) (judge : Judge) :
      p.fromZero.wantsLonger env base limit judge = p.wantsLonger env base limit judge := by
    rw [wantsLonger, outcomes_fromZero]
    rfl
  induction deeper generalizing limit judge with
  | zero => rw [rounds, rounds, hfound, hwants]
  | succ deeper ih => rw [rounds, rounds, hfound, hwants, ih]

end Program

namespace PathPattern

variable {p : PathPattern} {env : Env} {base : Bindings}

/-- No round below the least length offers anything. -/
theorem offered_of_lt_minLength (hp : (Program.compile p).selector.isShortest = true) {l : Nat}
    (hl : l < (Program.compile p).minLength) : (Program.compile p).offered env base l = [] := by
  refine List.eq_nil_iff_forall_not_mem.mpr fun x hx => ?_
  have hlength := Program.length_offered hp hx
  rw [Program.offered, Program.candidates_shortest hp] at hx
  obtain ⟨t, ht, hx⟩ := List.mem_filterMap.mp hx
  have hway : t.stage ∈ p.ways env base l := by
    rw [← p.stages_atRound env base l 0 ((Program.compile p).judge env), Search.pending_atRound]
    exact List.mem_map_of_mem (List.mem_filter.mp ht).1
  have hleast : (Program.compile p).minLength ≤ t.walk.length := length_ways hway
  rw [Search.solution?_path hx, Walk.length_toPath] at hlength
  omega

/-- The rounds that a search for shortest paths leaves out would have found nothing. -/
theorem solutions_fromZero (p : PathPattern) (env : Env) (base : Bindings)
    (hmax : env.config.maxSteps = none) :
    (Program.compile p).fromZero.solutions env base = (Program.compile p).solutions env base := by
  set compiled := Program.compile p with hcompiled
  have hfresh : Search.fresh env compiled.fromZero = Search.fresh env compiled := rfl
  cases ht : (Search.fresh env compiled).terminated with
  | true =>
    rw [(compiled.fromZero.solutions_of_terminated env base (hfresh ▸ ht)).1,
      (compiled.solutions_of_terminated env base ht).1]
  | false =>
    cases hp : compiled.selector.isShortest with
    | false =>
      rw [(compiled.fromZero.solutions_plain env base hmax hp (hfresh ▸ ht)).1,
        (compiled.solutions_plain env base hmax hp ht).1, Program.outcomes_fromZero]
      rfl
    | true =>
      have hzero := congrArg Prod.fst (compiled.fromZero.solutions_shortest env base hmax hp (hfresh ▸ ht))
      have hleast := congrArg Prod.fst (compiled.solutions_shortest env base hmax hp ht)
      simp only at hzero hleast
      have hnone : ∀ l < compiled.minLength, compiled.offered env base l = [] := fun l hl =>
        offered_of_lt_minLength hp hl
      rw [hzero, hleast, Program.minLength_fromZero, if_neg (Nat.not_lt_zero _), Program.rounds_fromZero,
        Nat.sub_zero]
      by_cases hcap : env.config.maxPathLength < compiled.minLength
      · rw [if_pos hcap]
        exact Program.rounds_nil (fun l _ hl => hnone l (by omega)) _
      · rw [if_neg hcap]
        have hskip := Program.rounds_skip hp ht (env.config.maxPathLength - compiled.minLength) 0
          compiled.minLength fun l _ hl => hnone l (by omega)
        rw [Nat.zero_add, Nat.sub_add_cancel (Nat.le_of_not_lt hcap)] at hskip
        exact hskip

end PathPattern

/-! ## The flag -/

namespace Search

variable {env : Env} {s : Search}

theorem truncated_accept (env : Env) (s : Search) (t : Thread) (left : List Choice) :
    (s.accept env {} t left).1.truncated = false := by
  unfold accept
  dsimp only
  split
  · rfl
  · split
    · rfl
    · split <;> rfl

theorem truncated_resume (env : Env) (s : Search) (t : Thread) (left : List Choice) :
    (s.resume env {} t left).1.truncated = false := by
  unfold resume
  split
  · split
    · rfl
    · rfl
    · rfl
    · rfl
    · exact truncated_accept ..
  · rfl

/-- The end of a round sets the flag only where the round is blocked and there is no longer one. -/
theorem truncated_nextRound (env : Env) (h : s.blocked = true → s.exact = true ∧ 0 < s.deeper) :
    (s.nextRound env {}).1.truncated = false := by
  unfold nextRound
  dsimp only
  split
  · next hexact =>
    split
    · next hblocked =>
      rw [(h hblocked).1] at hexact
      cases hexact
    · rfl
  · split
    · rfl
    · next hgoesOn =>
      have hblocked : s.blocked = true := by
        cases hb : s.blocked with
        | true => rfl
        | false => simp [hb] at hgoesOn
      split
      · next hdeeper =>
        have := (h hblocked).2
        omega
      · rfl

/-- A step sets the flag only where a round is blocked that is the last one. -/
theorem truncated_step (hmax : env.config.maxSteps = none)
    (h : s.blocked = true → s.exact = true ∧ 0 < s.deeper) :
    (s.step env {}).1.truncated = false := by
  have hspent : Tally.isSpent {} env.config = false := by simp [Tally.isSpent, hmax]
  unfold step
  split
  · rfl
  · split
    · exact truncated_resume ..
    · unfold expand
      simp only [hspent, Bool.false_eq_true, if_false]
      split <;> rfl
    · rfl
    · split
      · rfl
      · exact truncated_nextRound env h

/-- A search cuts nothing off if no round is blocked that is the last one. -/
theorem rest_uncut {p : Program} {base : Bindings} (hmax : env.config.maxSteps = none)
    (h : ∀ u, Reached env p base u → u.blocked = true → u.exact = true ∧ 0 < u.deeper)
    (hs : Reached env p base s) : (s.rest env).2 = false := by
  induction s using Search.rest.induct env with
  | case1 s tally hstep =>
    have hflag := truncated_step hmax (h s hs)
    rw [rest_exhausted (congrArg Prod.snd hstep)]
    exact hflag
  | case2 s tally x u hstep _ ih =>
    rw [rest_found (congrArg Prod.snd hstep)]
    exact ih (hs.step {} (by rw [hstep]; rfl))
  | case3 s tally u hstep _ ih =>
    rw [rest_goesOn (congrArg Prod.snd hstep)]
    exact ih (hs.step {} (by rw [hstep]; rfl))

end Search

namespace PathPattern

variable {p : PathPattern} {env : Env} {base : Bindings} {m : Nat}

/-- A round that is blocked is not the last one, if every match may be as long as it has to be. -/
theorem deeper_of_blocked (hq : ∀ q ∈ p.expr.quantifiers, q.IsOrdered) (hfit : p.WalksFit env)
    (hm : (Program.compile p).maxLength = some m) (hle : m ≤ env.config.maxPathLength) {s : Search}
    (h : Search.Reached env (.compile p) base s) : s.blocked = true → 0 < s.deeper := by
  induction h with
  | begin => exact nofun
  | @step s u tally h hu ih =>
    intro hblocked
    have hu := Search.continues_step hu
    rcases hu.rounds with ⟨-, hdeeper⟩ | ⟨-, hopen, -⟩
    · rw [hdeeper]
      rcases hu.blocked hblocked with hbefore | ⟨t, pattern, grouped, ht, hroom, hi⟩
      · exact ih hbefore
      · -- The thread has as many edges as the round allows, and may have one more.
        have hlength : t.walk.length + t.room = s.limit := h.length_add_room _ ht
        have hless : t.walk.length < m :=
          length_lt_maxLength h ht hq (hfit base s h _ ht) (h.program ▸ hi) hm
        have hlimit := h.limit_add_deeper
        omega
    · rw [hopen] at hblocked
      cases hblocked

/-- A search cuts nothing off if no match can be longer than the greatest length allowed. -/
theorem isCut_eq_false (hmax : env.config.maxSteps = none)
    (hq : ∀ q ∈ p.expr.quantifiers, q.IsOrdered) (hfit : p.WalksFit env)
    (hm : (Program.compile p).maxLength = some m) (hle : m ≤ env.config.maxPathLength) :
    (Program.compile p).isCut env base = false := by
  have hleast : (Program.compile p).minLength ≤ m := (p.expr.boundsHold hq).ordered m hm
  have hbegin : (Search.begin env {} (.compile p) base).1.truncated = false := by
    simp [Search.begin, Nat.not_lt.mpr (hleast.trans hle)]
  have hrest : ((Search.begin env {} (.compile p) base).2.rest env).2 = false := by
    refine Search.rest_uncut hmax (fun u hu hblocked => ?_) (.begin {})
    have hdeeper := deeper_of_blocked hq hfit hm hle hu hblocked
    refine ⟨?_, hdeeper⟩
    rw [Search.exact, hu.program]
    by_contra hplain
    rw [Bool.not_eq_true] at hplain
    exact absurd (hu.deeper_eq hplain) (by omega)
  rw [Program.isCut, hbegin, hrest]
  rfl

end PathPattern

namespace GraphPattern

variable {g : GraphPattern} {env : Env}

theorem search_eq {j : Join} {c : Cursor} (h : g.search env = .ok (j, c)) :
    j = g.join env ∧ c = (g.join env).begin (g.paths.map .compile) := by
  unfold search at h
  cases hvalid : g.validate env.store env.config.strictCatalog env.seed.kinds with
  | error e => rw [hvalid] at h; cases h
  | ok kinds => rw [hvalid] at h; cases h; exact ⟨rfl, rfl⟩

theorem isCut_eq_false {j : Join} (paths : List PathPattern) (base : Bindings)
    (h : ∀ p ∈ paths, ∀ base, (Program.compile p).isCut j.env base = false) :
    j.isCut (paths.map .compile) base = false := by
  induction paths generalizing base with
  | nil => rfl
  | cons p paths ih =>
    rw [List.map_cons, Join.isCut, h p List.mem_cons_self, Bool.false_or, List.any_eq_false]
    intro x _
    rw [ih x.bindings fun q hq => h q (List.mem_cons_of_mem _ hq)]
    exact Bool.false_ne_true

theorem truncated_pull {j : Join} (hmax : j.env.config.maxSteps = none) {c : Cursor}
    (h : c.isCut j = false) (n : Nat) : (j.pull n c).2.tally.truncated = false := by
  have hall := (Join.collect_eq hmax #[] c).2
  rw [Join.collect_pull #[] n c, (Join.collect_eq hmax _ _).2, h, Cursor.isCut, Bool.or_eq_false_iff] at hall
  exact hall.1

/-- **The lengths of a program hold.** Every match has at least the least length of its path pattern, and
at most the greatest; no thread wants an edge that would be one too many. So a search may start with the
least length, and with room for the greatest one nothing is cut off. -/
theorem lengths_hold (g : GraphPattern) (env : Env)
    (hq : ∀ p ∈ g.paths, ∀ q ∈ p.expr.quantifiers, q.IsOrdered) :
    (∀ p ∈ g.paths, ∀ base s, Search.Reached env (.compile p) base s → ∀ c ∈ s.agenda,
      ((Program.compile p).code[c.thread.pc]? = some .accept →
        (Program.compile p).minLength ≤ c.thread.walk.length) ∧
      (c.thread.walk.Fits → ∀ m, (Program.compile p).maxLength = some m →
        c.thread.walk.length ≤ m ∧
        ∀ pattern grouped, (Program.compile p).code[c.thread.pc]? = some (.edge pattern grouped) →
          c.thread.walk.length < m)) ∧
    (env.config.maxSteps = none → ∀ p ∈ g.paths, ∀ base,
      (Program.compile p).fromZero.solutions env base = (Program.compile p).solutions env base) ∧
    (env.config.maxSteps = none →
      (∀ p ∈ g.paths, p.WalksFit env ∧
        ∃ m ≤ env.config.maxPathLength, (Program.compile p).maxLength = some m) →
      ∀ j c, g.search env = .ok (j, c) → ∀ n, (j.pull n c).2.tally.truncated = false) := by
  refine ⟨fun p hp base s hs c hc => ⟨fun hi => ?_, fun hfit m hm => ⟨?_, fun pattern grouped hi => ?_⟩⟩,
    fun hmax p _ base => p.solutions_fromZero env base hmax, fun hmax hroom j c hsearch n => ?_⟩
  · exact PathPattern.minLength_le_length hs hc hi
  · exact PathPattern.length_le_maxLength hs hc (hq p hp) hfit hm
  · exact PathPattern.length_lt_maxLength hs hc (hq p hp) hfit hi hm
  · obtain ⟨rfl, rfl⟩ := search_eq hsearch
    refine truncated_pull hmax ?_ n
    have hcut := isCut_eq_false (j := g.join env) g.paths [] fun p hp base => by
      obtain ⟨hfit, m, hle, hm⟩ := hroom p hp
      exact PathPattern.isCut_eq_false hmax (hq p hp) hfit hm hle
    rw [← (Join.collect_begin (j := g.join env) hmax (g.paths.map .compile)).2,
      (Join.collect_eq hmax #[] _).2] at hcut
    exact hcut

/-- Over one or two edges, with room for two. -/
theorem lengths_hold_hop :
    let p : PathPattern :=
      { expr := .term [.mk (.node {}) none,
          .mk (.edge { direction := .right }) (some (.between 1 2)), .mk (.node {}) none] }
    let env : Env := ⟨Graph.hop.store, { maxPathLength := 2 }, []⟩
    (∀ q ∈ p.expr.quantifiers, q.IsOrdered) ∧ p.WalksFit env ∧
      (Program.compile p).minLength = 1 ∧ (Program.compile p).maxLength = some 2 ∧
      (Program.compile p).fromZero.solutions env [] = (Program.compile p).solutions env [] ∧
      ∃ j c, p.toGraphPattern.search env = .ok (j, c) ∧ (j.pull 2 c).2.tally.truncated = false := by
  intro p env
  have hq : ∀ q ∈ p.expr.quantifiers, q.IsOrdered := by
    intro q hq
    obtain rfl : q = .between 1 2 := List.mem_singleton.mp hq
    exact Quantifier.isOrdered_of_check rfl
  have hfit : p.WalksFit env := p.walksFit_of_lt (by decide)
  obtain ⟨-, hzero, huncut⟩ := p.toGraphPattern.lengths_hold env
    fun _ hp => List.mem_singleton.mp hp ▸ hq
  refine ⟨hq, hfit, rfl, rfl, hzero rfl p List.mem_cons_self [], _, _, rfl, huncut rfl ?_ _ _ rfl 2⟩
  exact fun _ hp => List.mem_singleton.mp hp ▸ ⟨hfit, 2, Nat.le_refl 2, rfl⟩

end GraphPattern

end GraphPatterns
