/-
Sifted ways. Of two searches of one store the second may keep what is bound in another form, and may give
up early where the first one goes on. Where all that is given up can be told from the bindings and can
not be mended (`Sifts`), the second search goes the ways of the first one that it keeps, in order, with
the bindings in its own form (`PathExpr.ways_sift`). What the two searches keep and change may rest on an
invariant of the bindings that every move keeps.
-/
import GraphPatterns.Proofs.Moves

namespace GraphPatterns

/-- The stage with its bindings in another form. -/
def Stage.rebind (change : Bindings → Bindings) (s : Stage) : Stage :=
  { s with bindings := change s.bindings }

@[simp] theorem Stage.walk_rebind (change : Bindings → Bindings) (s : Stage) :
    (s.rebind change).walk = s.walk := rfl

@[simp] theorem Stage.room_rebind (change : Bindings → Bindings) (s : Stage) :
    (s.rebind change).room = s.room := rfl

/-- Binding goes along with a change of bindings where writing and collecting do. -/
theorem Stage.bind_rebind {change : Bindings → Bindings} (s : Stage) {name : Option String}
    {repeated : Bool} (x : ElementId)
    (hnew : ∀ own, name = some own → repeated = false →
      change (s.bindings.insertNew own (.ofElement x)) =
        (change s.bindings).insertNew own (.ofElement x))
    (hcollect : ∀ own, name = some own → repeated = true →
      change (Thread.collect s.bindings own x) = Thread.collect (change s.bindings) own x) :
    (s.rebind change).bind name repeated x = (s.bind name repeated x).rebind change := by
  cases name with
  | none => rfl
  | some own =>
    cases repeated with
    | false => exact congrArg (fun b => { s with bindings := b }) (hnew own rfl rfl).symm
    | true =>
      have htaken : (s.rebind change).takenBy? (some own) = s.takenBy? (some own) := rfl
      simp only [bind, htaken, Bool.not_true, Bool.false_eq_true, if_false]
      split
      · rfl
      · exact congrArg (fun b => { s with taken := s.taken ++ [(own, x)], bindings := b })
          (hcollect own rfl rfl).symm

/-- The stages that are kept, with their bindings in another form. -/
def Stage.sift (keep : Bindings → Bool) (change : Bindings → Bindings) (us : List Stage) : List Stage :=
  (us.filter fun u => keep u.bindings).map (rebind change)

/-- A choice among the ways of one search and a change of its bindings that lead to those of another one,
at some places and under an invariant of the first. -/
structure Sifts (places : List Place) (env env' : Env) (inv : Bindings → Prop) (keep : Bindings → Bool)
    (change : Bindings → Bindings) : Prop where
  store : env'.store = env.store
  keeps : Moves places (Stage.Keeps env inv)
  /-- What is given up stays so. -/
  loses : Moves places (Stage.Keeps env fun bindings => keep bindings = false)
  bind : ∀ {s : Stage}, inv s.bindings → keep s.bindings = true → ∀ {l : Place}, l ∈ places →
    ∀ {f : Filler} {repeated : Bool}, l.filler? = some (f, repeated) → ∀ x : ElementId,
    (if f.admits env' (change s.bindings) repeated (s.takenBy? f.name) x then
        [(s.rebind change).bind f.name repeated x] else []) =
      Stage.sift keep change
        (if f.admits env s.bindings repeated (s.takenBy? f.name) x then [s.bind f.name repeated x]
        else [])
  closeGroup? : ∀ {bindings : Bindings}, inv bindings → keep bindings = true →
    ∀ {name : Option String} {mode : PathMode} {condition : Option Expr} {repeated : Bool},
    .group name mode condition repeated ∈ places → ∀ sub : Path,
    Thread.closeGroup? env' (change bindings) sub name condition repeated =
      ((Thread.closeGroup? env bindings sub name condition repeated).filter keep).map change

section Ways

variable {places : List Place} {env env' : Env} {inv : Bindings → Prop} {keep : Bindings → Bool}
  {change : Bindings → Bindings}

namespace Stage

@[simp] theorem sift_nil : sift keep change [] = [] := rfl

theorem sift_append (us vs : List Stage) :
    sift keep change (us ++ vs) = sift keep change us ++ sift keep change vs := by
  rw [sift, List.filter_append, List.map_append]
  rfl

theorem sift_singleton {u : Stage} (h : keep u.bindings = true) :
    sift keep change [u] = [u.rebind change] := by
  simp [sift, h]

theorem sift_cons {u : Stage} (us : List Stage) (h : keep u.bindings = true) :
    sift keep change (u :: us) = u.rebind change :: sift keep change us := by
  simp [sift, h]

theorem sift_flatMap {α : Type} (xs : List α) (f : α → List Stage) :
    sift keep change (xs.flatMap f) = xs.flatMap fun x => sift keep change (f x) := by
  rw [sift, List.filter_flatMap, List.map_flatMap]
  rfl

/-- One part of a pattern after another: what was given up by the first part has no ways to be kept. -/
theorem flatMap_sift {xs ys : List Stage} {f f' : Stage → List Stage}
    (hxs : ys = sift keep change xs)
    (hf : ∀ u ∈ xs, keep u.bindings = true → f' (u.rebind change) = sift keep change (f u))
    (hlost : ∀ u ∈ xs, keep u.bindings = false → ∀ v ∈ f u, keep v.bindings = false) :
    ys.flatMap f' = sift keep change (xs.flatMap f) := by
  subst hxs
  induction xs with
  | nil => rfl
  | cons u xs ih =>
    have hrest := ih (fun v hv => hf v (List.mem_cons_of_mem _ hv))
      fun v hv => hlost v (List.mem_cons_of_mem _ hv)
    rw [List.flatMap_cons, sift_append, ← hrest]
    cases hu : keep u.bindings with
    | true =>
      rw [← hf u List.mem_cons_self hu]
      simp [sift, hu]
    | false =>
      have hnone : sift keep change (f u) = [] := by
        rw [sift, List.map_eq_nil_iff, List.filter_eq_nil_iff]
        intro v hv
        rw [hlost u List.mem_cons_self hu v hv]
        exact Bool.false_ne_true
      rw [hnone]
      simp [sift, hu]

theorem choice_sift {terms : List (List Factor)} {c c' : Surroundings} {s : Stage}
    (hs : keep s.bindings = true)
    (hterms : choiceWays terms c' (s.rebind change) = sift keep change (choiceWays terms c s)) :
    (if terms.isEmpty then [s.rebind change] else choiceWays terms c' (s.rebind change)) =
      sift keep change (if terms.isEmpty then [s] else choiceWays terms c s) := by
  split
  · exact (sift_singleton hs).symm
  · exact hterms

end Stage

/-- A repetition has the room of the stages that it starts from, so it stops where the other one
stops. -/
theorem Sifts.repetitions {body body' : Stage → List Stage} {lower : Nat} {upper : Option Nat}
    (hinv : ∀ s, inv s.bindings → ∀ u ∈ body s, inv u.bindings)
    (hlost : ∀ n s, keep s.bindings = false →
      ∀ u ∈ repetitions body lower upper n s, keep u.bindings = false)
    (hbody : ∀ s, inv s.bindings → keep s.bindings = true →
      body' (s.rebind change) = Stage.sift keep change (body s))
    (n : Nat) (s : Stage) (hs : inv s.bindings) (hkeep : keep s.bindings = true) :
    repetitions body' lower upper n (s.rebind change) =
      Stage.sift keep change (repetitions body lower upper n s) := by
  induction n, s using repetitions.induct lower upper with
  | case1 n s hn ih =>
    rw [GraphPatterns.repetitions, dif_pos hn, GraphPatterns.repetitions, dif_pos hn]
    exact Stage.flatMap_sift (hbody s hs hkeep) (fun u hu => ih u (hinv s hs u hu))
      fun u _ => hlost (n + 1) { u with taken := s.taken }
  | case2 n s hn hupper =>
    rw [GraphPatterns.repetitions, dif_neg hn, if_pos hupper, GraphPatterns.repetitions, dif_neg hn,
      if_pos hupper]
    exact (Stage.sift_singleton hkeep).symm
  | case3 n s hn hupper ih =>
    rw [GraphPatterns.repetitions, dif_neg hn, if_neg hupper, GraphPatterns.repetitions, dif_neg hn,
      if_neg hupper, Stage.sift_cons _ hkeep]
    refine congrArg _ (Stage.flatMap_sift (hbody s hs hkeep) (fun u hu hu' => ?_) fun u _ hu' v hv => ?_)
    · have hroom : ((u.rebind change).room < (s.rebind change).room) = (u.room < s.room) := rfl
      simp only [hroom]
      split
      · next hlt => exact ih u hlt (hinv s hs u hu) hu'
      · rfl
    · split at hv
      · exact hlost (n + 1) { u with taken := s.taken } hu' v hv
      · cases hv

/-- The ways of a group are those ways of its body after which it can be closed. -/
theorem Element.ways_group {name : Option String} {mode : Option PathMode} {body : PathExpr}
    {condition : Option Expr} {c : Surroundings} {s : Stage} :
    (Element.group name mode body condition).ways c s =
      (body.ways { c with frames := ⟨mode.getD .walk, s.walk.length⟩ :: c.frames } s).flatMap fun u =>
        ((Thread.closeGroup? c.env u.bindings (u.walk.since s.walk.length).toPath name condition
          c.repeated).map fun bindings => { u with bindings := bindings }).toList := by
  rw [Element.ways]
  refine List.flatMap_congr fun u _ => ?_
  cases Thread.closeGroup? c.env u.bindings (u.walk.since s.walk.length).toPath name condition
    c.repeated <;> rfl

/-- The surroundings of a part of a pattern in another search. -/
def Surroundings.withEnv (c : Surroundings) (env : Env) : Surroundings := { c with env := env }

mutual

/-- **The ways of the second search are those of the first one that are kept.** -/
theorem PathExpr.ways_sift (h : Sifts places env env' inv keep change) :
    ∀ (x : PathExpr) (c : Surroundings) (s : Stage), c.env = env → inv s.bindings →
      keep s.bindings = true → x.places c.repeated ⊆ places →
      x.ways (c.withEnv env') (s.rebind change) = Stage.sift keep change (x.ways c s)
  | .term factors, c, s, hc, hs, hkeep, hp => by
    rw [PathExpr.places] at hp
    rw [PathExpr.ways, PathExpr.ways]
    exact term_ways_sift h factors c s hc hs hkeep hp
  | .union terms, c, s, hc, hs, hkeep, hp => by
    rw [PathExpr.places] at hp
    rw [PathExpr.ways, PathExpr.ways]
    exact Stage.choice_sift hkeep (choice_ways_sift h terms c s hc hs hkeep hp)
  | .multiset terms, c, s, hc, hs, hkeep, hp => by
    rw [PathExpr.places] at hp
    rw [PathExpr.ways, PathExpr.ways]
    exact Stage.choice_sift hkeep (choice_ways_sift h terms c s hc hs hkeep hp)

theorem choice_ways_sift (h : Sifts places env env' inv keep change) :
    ∀ (terms : List (List Factor)) (c : Surroundings) (s : Stage), c.env = env → inv s.bindings →
      keep s.bindings = true → choicePlaces c.repeated terms ⊆ places →
      choiceWays terms (c.withEnv env') (s.rebind change) =
        Stage.sift keep change (choiceWays terms c s)
  | [], c, s, hc, hs, hkeep, hp => by
    rw [choiceWays, choiceWays, Stage.sift_nil]
  | t :: rest, c, s, hc, hs, hkeep, hp => by
    rw [choicePlaces, List.append_subset] at hp
    rw [choiceWays, choiceWays, Stage.sift_append, term_ways_sift h t c s hc hs hkeep hp.1,
      choice_ways_sift h rest c s hc hs hkeep hp.2]

theorem term_ways_sift (h : Sifts places env env' inv keep change) :
    ∀ (factors : List Factor) (c : Surroundings) (s : Stage), c.env = env → inv s.bindings →
      keep s.bindings = true → termPlaces c.repeated factors ⊆ places →
      termWays factors (c.withEnv env') (s.rebind change) =
        Stage.sift keep change (termWays factors c s)
  | [], c, s, hc, hs, hkeep, hp => by
    rw [termWays, termWays, Stage.sift_singleton hkeep]
  | f :: rest, c, s, hc, hs, hkeep, hp => by
    rw [termPlaces, List.append_subset] at hp
    rw [termWays, termWays]
    -- The rest of the term starts from a way of the first factor, which keeps the invariant.
    refine Stage.flatMap_sift (f.ways_sift h c s hc hs hkeep hp.1) (fun u hu hu' => ?_)
      fun u hu hu' v hv => ?_
    · exact term_ways_sift h rest c u hc (f.ways_of_moves h.keeps c s hp.1 u hu hc hs) hu' hp.2
    · exact term_ways_of_moves h.loses rest c u hp.2 v hv hc hu'

theorem Factor.ways_sift (h : Sifts places env env' inv keep change) :
    ∀ (f : Factor) (c : Surroundings) (s : Stage), c.env = env → inv s.bindings →
      keep s.bindings = true → f.places c.repeated ⊆ places →
      f.ways (c.withEnv env') (s.rebind change) = Stage.sift keep change (f.ways c s)
  | .mk e none, c, s, hc, hs, hkeep, hp => by
    rw [Factor.places, Option.isSome_none, Bool.or_false] at hp
    rw [Factor.ways, Factor.ways]
    exact e.ways_sift h c s hc hs hkeep hp
  | .mk e (some q), c, s, hc, hs, hkeep, hp => by
    rw [Factor.places, Option.isSome_some, Bool.or_true] at hp
    rw [Factor.ways, Factor.ways]
    let inside : Surroundings := { c with repeated := true }
    exact Sifts.repetitions
      (fun u hu v hv => e.ways_of_moves h.keeps inside u hp v hv hc hu)
      (fun n u hu v hv => h.loses.repetitions (e.ways_of_moves h.loses inside · hp) q.lower q.upper n u
        v hv hc hu)
      (fun u hu hu' => e.ways_sift h inside u hc hu hu' hp) 0 s hs hkeep

theorem Element.ways_sift (h : Sifts places env env' inv keep change) :
    ∀ (e : Element) (c : Surroundings) (s : Stage), c.env = env → inv s.bindings →
      keep s.bindings = true → e.places c.repeated ⊆ places →
      e.ways (c.withEnv env') (s.rebind change) = Stage.sift keep change (e.ways c s)
  | .node f, c, s, hc, hs, hkeep, hp => by
    subst hc
    have hplace : .node f c.repeated ∈ places := hp (by simp [Element.places])
    rw [Element.ways, Element.ways, Stage.walk_rebind]
    exact h.bind hs hkeep hplace rfl (.vertex s.walk.current)
  | .edge pattern, c, s, hc, hs, hkeep, hp => by
    subst hc
    have hplace : .edge pattern c.repeated ∈ places := hp (by simp [Element.places])
    have hstore : (c.withEnv env').env.store = c.env.store := h.store
    rw [Element.ways, Element.ways, Stage.room_rebind]
    cases s.room with
    | zero => rfl
    | succ room =>
      simp only [hstore, Stage.walk_rebind, Stage.sift_flatMap]
      refine List.flatMap_congr fun edge _ => ?_
      have hsteps : (c.withEnv env').admitsStep s.walk edge.1 edge.2 =
          c.admitsStep s.walk edge.1 edge.2 := rfl
      simp only [hsteps]
      cases c.admitsStep s.walk edge.1 edge.2 with
      | false => rfl
      | true =>
        simp only [Bool.true_and]
        let crossed : Stage := { s with walk := s.walk.extend edge.1 edge.2, room := room }
        exact h.bind (s := crossed) hs hkeep hplace rfl (.edge edge.1)
  | .group name mode body condition, c, s, hc, hs, hkeep, hp => by
    rw [Element.places, List.cons_subset] at hp
    let inside : Surroundings := { c with frames := ⟨mode.getD .walk, s.walk.length⟩ :: c.frames }
    rw [Element.ways_group, Element.ways_group]
    refine Stage.flatMap_sift (body.ways_sift h inside s hc hs hkeep hp.2) (fun u hu hu' => ?_)
      fun u _ hu' v hv => ?_
    · have hclose := h.closeGroup? (body.ways_of_moves h.keeps inside s hp.2 u hu hc hs) hu' hp.1
        (u.walk.since s.walk.length).toPath
      have hclosed : Thread.closeGroup? (c.withEnv env').env (u.rebind change).bindings
          ((u.rebind change).walk.since (s.rebind change).walk.length).toPath name condition
          (c.withEnv env').repeated = _ := hclose
      rw [hclosed, hc]
      cases hbound : Thread.closeGroup? env u.bindings (u.walk.since s.walk.length).toPath name condition
        c.repeated with
      | none => rfl
      | some later =>
        cases hlater : keep later <;> simp [Stage.sift, Stage.rebind, hlater]
    · obtain ⟨later, hlater, rfl⟩ := Option.map_eq_some_iff.mp (Option.mem_toList.mp hv)
      -- What closes the group is a move from the way of its body, which is already given up.
      exact h.loses.group (s := { s with bindings := u.bindings }) hp.1 (fun _ hu => hu) hlater hc hu'

end

end Ways

end GraphPatterns
