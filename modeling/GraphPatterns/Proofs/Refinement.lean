/-
The code of a pattern does what the pattern means: the threads that come to the end of a program, in
the order of the search, are the ways of its pattern (`PathPattern.stages_start`).
-/
import GraphPatterns.Graph.Basic
import GraphPatterns.Pattern.Validation
import GraphPatterns.Proofs.Loops
import GraphPatterns.Proofs.Round

namespace GraphPatterns

/-! ## The code of a pattern -/

section Code

variable {p : Program}

mutual

theorem PathExpr.implements : ∀ (x : PathExpr) (c : Surroundings) (pc : Nat), c.mode = p.mode →
    Stands p pc (x.code c.repeated) → x.idleSteps ≤ p.idle →
    Implements p c pc (x.code c.repeated).length x.idleSteps (x.ways c)
  | .term factors, c, pc, hm, h, hidle => by
    simp only [PathExpr.code, PathExpr.idleSteps] at h hidle ⊢
    exact (term_implements factors c pc hm h hidle).congr fun s => by rw [PathExpr.ways]
  | .union terms, c, pc, hm, h, hidle => by
    simp only [PathExpr.code, PathExpr.idleSteps] at h hidle ⊢
    exact (choice_implements terms c pc hm h hidle).congr fun s => by rw [PathExpr.ways]
  | .multiset terms, c, pc, hm, h, hidle => by
    simp only [PathExpr.code, PathExpr.idleSteps] at h hidle ⊢
    exact (choice_implements terms c pc hm h hidle).congr fun s => by rw [PathExpr.ways]

theorem choice_implements : ∀ (terms : List (List Factor)) (c : Surroundings) (pc : Nat),
    c.mode = p.mode → Stands p pc (choiceCode c.repeated terms) → choiceIdleSteps terms ≤ p.idle →
    Implements p c pc (choiceCode c.repeated terms).length (choiceIdleSteps terms)
      (fun s => if terms.isEmpty then [s] else choiceWays terms c s)
  | [], c, pc, hm, h, hidle => Implements.nothing
  | [t], c, pc, hm, h, hidle => by
    simp only [choiceCode, choiceIdleSteps, List.isEmpty_nil, if_true] at h hidle ⊢
    refine ((term_implements t c pc hm h (by omega)).mono (by omega)).congr fun s => ?_
    simp [choiceWays]
  | t :: t' :: rest, c, pc, hm, h, hidle => by
    rw [choiceIdleSteps] at hidle ⊢
    rw [choiceCode] at h ⊢
    simp only [List.isEmpty_cons, Bool.false_eq_true, if_false] at h ⊢
    have hfirst := term_implements t c (pc + 1) hm h.tail.left (by omega)
    have hothers := choice_implements (t' :: rest) c (pc + (termCode c.repeated t).length + 2) hm
      (by
        have := h.tail.right.tail
        rwa [show pc + 1 + (termCode c.repeated t).length + 1 =
          pc + (termCode c.repeated t).length + 2 by omega] at this) (by omega)
    have hlength : (.split ((termCode c.repeated t).length + 2) :: termCode c.repeated t ++
        .jump ((choiceCode c.repeated (t' :: rest)).length + 1) ::
          choiceCode c.repeated (t' :: rest)).length =
        (termCode c.repeated t).length + (choiceCode c.repeated (t' :: rest)).length + 2 := by
      simp only [List.length_append, List.length_cons]
      omega
    rw [hlength]
    refine (Implements.alternation h hfirst hothers (by omega)).congr fun s => ?_
    rw [choiceWays]
    rfl

theorem term_implements : ∀ (factors : List Factor) (c : Surroundings) (pc : Nat),
    c.mode = p.mode → Stands p pc (termCode c.repeated factors) →
    termIdleSteps factors ≤ p.idle →
    Implements p c pc (termCode c.repeated factors).length (termIdleSteps factors)
      (termWays factors c)
  | [], c, pc, hm, h, hidle => Implements.nothing.congr fun s => by rw [termWays]
  | f :: rest, c, pc, hm, h, hidle => by
    rw [termIdleSteps] at hidle ⊢
    rw [termCode] at h ⊢
    rw [List.length_append]
    have hfirst := f.implements c pc hm h.left (by omega)
    have hrest := term_implements rest c _ hm h.right (by omega)
    exact (hfirst.seq hrest hidle).congr fun s => by rw [termWays]

theorem Factor.implements : ∀ (f : Factor) (c : Surroundings) (pc : Nat), c.mode = p.mode →
    Stands p pc (f.code c.repeated) → f.idleSteps ≤ p.idle →
    Implements p c pc (f.code c.repeated).length f.idleSteps (f.ways c)
  | .mk e none, c, pc, hm, h, hidle => by
    simp only [Factor.code, Factor.idleSteps] at h hidle ⊢
    exact (e.implements c pc hm h hidle).congr fun s => by rw [Factor.ways]
  | .mk e (some q), c, pc, hm, h, hidle => by
    refine Implements.quantified h ?_ hidle
    simp only [Factor.code, Factor.idleSteps, List.cons_append] at h hidle
    refine e.implements { c with repeated := true } (pc + 2) hm h.tail.tail.left ?_
    have : 1 * (e.idleSteps + 2) ≤ (q.lower + 2) * (e.idleSteps + 2) :=
      Nat.mul_le_mul_right _ (by omega)
    omega

theorem Element.implements : ∀ (e : Element) (c : Surroundings) (pc : Nat), c.mode = p.mode →
    Stands p pc (e.code c.repeated) → e.idleSteps ≤ p.idle →
    Implements p c pc (e.code c.repeated).length e.idleSteps (e.ways c)
  | .node f, c, pc, hm, h, hidle => by
    simp only [Element.code, Element.idleSteps] at h ⊢
    exact Implements.node h
  | .edge pattern, c, pc, hm, h, hidle => by
    simp only [Element.code, Element.idleSteps] at h ⊢
    exact Implements.edge h hm
  | .group name mode body condition, c, pc, hm, h, hidle => by
    rw [Element.idleSteps] at hidle ⊢
    refine Implements.group h (fun start => ?_) hidle
    rw [Element.code, List.cons_append] at h
    exact body.implements { c with frames := ⟨mode.getD .walk, start⟩ :: c.frames } (pc + 1) hm
      h.tail.left (by omega)

end

end Code

/-- The threads that come to the end of the program of a path pattern, from one start vertex: they
stand at the ways of the pattern, in the same order. -/
theorem PathPattern.stages_start (p : PathPattern) (env : Env) (base : Bindings) (limit : Nat)
    (v : VertexId) :
    (Choice.resume (.start v base limit (Program.compile p).idle)).stages env (.compile p) =
      p.expr.ways ⟨env, p.modeInForce, [], false⟩ (.start v base limit) := by
  have hcode : Stands (.compile p) 0 (p.expr.code false ++ [.accept]) := List.prefix_refl _
  have hexpr := p.expr.implements (p := .compile p) ⟨env, p.modeInForce, [], false⟩ 0 rfl hcode.left
    (Nat.le_succ _)
  refine (hexpr (.start v base limit (Program.compile p).idle) (fun s => [s]) rfl rfl
    (fun b hb => by cases hb) (Nat.le_succ _) fun u hu _ => ?_).trans (List.flatMap_singleton' _)
  have hus : 1 ≤ u.slack := hu.enough (Nat.le_refl _) (Nat.le_refl _)
  obtain ⟨left, hleft⟩ : ∃ left, u.slack = left + 1 := ⟨u.slack - 1, by omega⟩
  have haccept : (Program.compile p).code[u.pc]? = some .accept := by
    rw [hu.pc]
    exact hcode.right.head
  exact Choice.stages_accepted (u := { u with slack := left }) hleft haccept rfl

/-- What is pending at the beginning of a round are the ways of the pattern. -/
theorem PathPattern.stages_atRound (p : PathPattern) (env : Env) (base : Bindings)
    (limit deeper : Nat) (judge : Judge) :
    (Outcome.arrivals ((Search.atRound env (.compile p) base limit deeper judge).pending env)).map
      Thread.stage = p.ways env base limit := by
  simp only [Search.pending, Search.atRound, List.flatMap_nil, List.nil_append,
    Outcome.arrivals_flatMap, List.map_flatMap]
  exact List.flatMap_congr fun v _ => p.stages_start env base limit v

theorem Search.round_neverEnds {env : Env} (tally : Tally) (s : Search)
    (hmax : env.config.maxSteps = none) (hj : s.judge.NeverEnds) (hf : s.finished = false) :
    (s.round env tally).2.finished = false := by
  fun_induction round env tally s with
  | case1 => exact hf
  | case2 => exact hf
  | case3 tally s hdone u hu _ _ ih =>
    simp only [Bool.or_eq_true, not_or, Bool.not_eq_true] at hdone
    cases step_within tally hmax hdone.1 hdone.2 with
    | moves tally' rest starts hstep => rw [hstep] at hu; cases hu; exact ih hj hf
    | blocks rest hstep => rw [hstep] at hu; cases hu; exact ih hj hf
    | arrives t rest hstep =>
      cases hx : candidate? env s.program t with
      | none =>
        obtain ⟨tally', he, -⟩ := accept_none tally rest hx
        rw [hstep, he] at hu
        cases hu
        exact ih hj hf
      | some x =>
        rw [hstep, accept_some tally rest hx] at hu
        simp only at hu
        have ho := hj.offer (fresh env s.program) (t.walk.start, t.walk.current) t.walk.length
        split at hu
        · cases hu; exact ih ho ho.isDone
        · cases hu; exact ih ho hf

/-- **A round matches what the pattern means.** -/
theorem PathPattern.round_ways (p : PathPattern) (env : Env) (base : Bindings) (limit deeper : Nat)
    (judge : Judge) (tally : Tally) (hmax : env.config.maxSteps = none) :
    let run := (Search.atRound env (.compile p) base limit deeper judge).round env tally
    run.1.map Thread.stage <+: p.ways env base limit ∧
      (run.2.finished = false → run.1.map Thread.stage = p.ways env base limit) ∧
      (judge.NeverEnds → run.2.finished = false) := by
  intro run
  obtain ⟨hpend, hthrough⟩ := Search.round_pending tally
    (Search.atRound env (.compile p) base limit deeper judge) hmax
  rw [← p.stages_atRound env base limit deeper judge, hpend, List.map_append]
  refine ⟨List.prefix_append _ _, fun hf => ?_, fun hj => ?_⟩
  · rw [Search.pending_of_isThrough (hthrough hf)]
    exact (List.append_nil _).symm
  · exact Search.round_neverEnds tally _ hmax hj rfl

/-- Two vertices and an edge from the first to the second. -/
def Graph.hop : Graph :=
  let a := Graph.empty.addVertex [] []
  let b := a.2.addVertex [] []
  match b.2.addEdge a.1 b.1 true [] [] with
  | .ok g => g.2
  | .error _ => b.2

theorem round_ways_hop :
    let p : PathPattern :=
      { expr := .term [.mk (.node {}) none, .mk (.edge { direction := .right }) none,
          .mk (.node {}) none] }
    let env : Env := ⟨Graph.hop.store, {}, []⟩
    let judge := Judge.start .overall (Search.fresh env (.compile p))
    let run := (Search.atRound env (.compile p) [] 1 0 judge).round env {}
    env.config.maxSteps = none ∧
      run.1.map Thread.stage = [⟨⟨⟨1⟩, [(⟨1⟩, ⟨2⟩)]⟩, [], [], 0⟩] := by
  intro p env judge run
  obtain ⟨-, hall, hends⟩ := p.round_ways env [] 1 0 judge {} rfl
  exact ⟨rfl, (hall (hends ⟨rfl, rfl⟩)).trans rfl⟩

/-- A choice without terms is accepted, and goes on as if nothing stood there, although there are no
terms whose ways could be listed. -/
theorem ways_of_no_terms :
    let p : PathPattern := { expr := .union [] }
    let env : Env := ⟨Graph.hop.store, {}, []⟩
    let judge := Judge.start .overall (Search.fresh env (.compile p))
    let run := (Search.atRound env (.compile p) [] 1 0 judge).round env {}
    (GraphPattern.validate { paths := [p] } env.store true []).isOk = true ∧
      run.1.map Thread.stage ≠ (startVertices env (.compile p) []).flatMap fun v =>
        choiceWays p.expr.terms ⟨env, p.modeInForce, [], false⟩ (.start v [] 1) := by
  intro p env judge run
  refine ⟨rfl, ?_⟩
  have hpend := p.stages_atRound env [] 1 0 judge
  obtain ⟨hrun, hthrough⟩ := @Search.round_pending env {}
    (Search.atRound env (.compile p) [] 1 0 judge) rfl
  have hopen : run.2.finished = false := Search.round_neverEnds {} _ rfl ⟨rfl, rfl⟩ rfl
  rw [hrun, Search.pending_of_isThrough (hthrough hopen), List.map_append] at hpend
  have hmap : run.1.map Thread.stage = p.ways env [] 1 := (List.append_nil _).symm.trans hpend
  rw [hmap]
  have hways : p.ways env [] 1 = [.start ⟨1⟩ [] 1, .start ⟨2⟩ [] 1] := rfl
  have hchoice : ((startVertices env (.compile p) []).flatMap fun v =>
    choiceWays p.expr.terms ⟨env, p.modeInForce, [], false⟩ (.start v [] 1)) = [] := rfl
  rw [hways, hchoice]
  exact List.cons_ne_nil _ _

end GraphPatterns
