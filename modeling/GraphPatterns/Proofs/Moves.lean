/-
What a pattern does to a stage is made of a few moves: a node is bound, an edge is crossed, a group is
closed, a repetition is ended. A relation between stages that can be chained and that holds for every
move of a pattern holds between a stage and each of its ways (`PathExpr.ways_of_moves`). If it also
looks at what happens on the way, it holds for all passages (`PathExpr.passages_of_strides`). So the
induction over patterns and repetitions is done here, once.
-/
import GraphPatterns.Proofs.Passages
import GraphPatterns.Proofs.Places

namespace GraphPatterns

/-- A relation between the stages before and after a part of a pattern and what happens in between, that
holds for each move at the given places and can be chained. -/
structure Strides (places : List Place) (R : Surroundings → Stage → List Passage.Event → Stage → Prop) :
    Prop where
  refl : ∀ (c : Surroundings) (s : Stage), R c s [] s
  trans : ∀ {c : Surroundings} {s u v : Stage} {before later : List Passage.Event}, R c s before u →
    R c u later v → R c s (before ++ later) v
  node : ∀ {c : Surroundings} {s : Stage} {f : NodePattern}, .node f c.repeated ∈ places →
    c.admits s f (.vertex s.walk.current) = true →
    R c s (s.taking f.name c.repeated (.vertex s.walk.current))
      (s.bind f.name c.repeated (.vertex s.walk.current))
  edge : ∀ {c : Surroundings} {s : Stage} {pattern : EdgePattern} {room : Nat}
    {edge : EdgeId × VertexId}, .edge pattern c.repeated ∈ places → s.room = room + 1 →
    edge ∈ c.env.store.neighbors s.walk.current pattern.direction →
    c.admitsStep s.walk edge.1 edge.2 = true → c.admits s pattern.filler (.edge edge.1) = true →
    R c s (s.taking pattern.filler.name c.repeated (.edge edge.1))
      (s.cross pattern c.repeated edge.1 edge.2 room)
  group : ∀ {c : Surroundings} {s u : Stage} {events : List Passage.Event} {name : Option String}
    {mode : PathMode} {condition : Option Expr} {bindings : Bindings},
    .group name mode condition c.repeated ∈ places →
    R { c with frames := ⟨mode, s.walk.length⟩ :: c.frames } s events u →
    Thread.closeGroup? c.env u.bindings (u.walk.since s.walk.length).toPath name condition c.repeated =
      some bindings →
    R c s (events ++ Passage.leaving name (u.walk.since s.walk.length).toPath) { u with bindings := bindings }
  again : ∀ {c : Surroundings} {s u : Stage} {events : List Passage.Event},
    R { c with repeated := true } s events u → R c s events { u with taken := s.taken }

section Passages

variable {places : List Place} {R : Surroundings → Stage → List Passage.Event → Stage → Prop}

namespace Strides

/-- What holds for one passage after another holds for both. -/
theorem after (h : Strides places R) {c : Surroundings} {s u : Stage} {events : List Passage.Event}
    (hbefore : R c s events u) {ts : List Passage} (hts : ∀ t ∈ ts, R c u t.events t.stage) :
    ∀ t ∈ ts.map (Passage.after events), R c s t.events t.stage := by
  intro u hu
  obtain ⟨t, ht, rfl⟩ := List.mem_map.mp hu
  exact h.trans hbefore (hts t ht)

theorem repetitions (h : Strides places R) {c : Surroundings} {body : Stage → List Passage}
    (hbody : ∀ s, ∀ t ∈ body s, R { c with repeated := true } s t.events t.stage) (lower : Nat)
    (upper : Option Nat) (n : Nat) (s : Stage) :
    ∀ t ∈ repeatedPassages body lower upper n s, R c s t.events t.stage := by
  induction n, s using GraphPatterns.repetitions.induct lower upper with
  | case1 n s hn ih =>
    intro u hu
    rw [repeatedPassages, dif_pos hn] at hu
    obtain ⟨t, ht, hu⟩ := List.mem_flatMap.mp hu
    exact h.after (h.again (hbody s t ht)) (ih t.stage) u hu
  | case2 n s hn hupper =>
    intro u hu
    rw [repeatedPassages, dif_neg hn, if_pos hupper] at hu
    obtain rfl := List.mem_singleton.mp hu
    exact h.refl c s
  | case3 n s hn hupper ih =>
    intro u hu
    rw [repeatedPassages, dif_neg hn, if_neg hupper] at hu
    rcases List.mem_cons.mp hu with rfl | hu
    · exact h.refl c s
    · obtain ⟨t, ht, hu⟩ := List.mem_flatMap.mp hu
      split at hu
      · next hroom => exact h.after (h.again (hbody s t ht)) (ih t.stage hroom) u hu
      · cases hu

theorem choice (h : Strides places R) {terms : List (List Factor)} {c : Surroundings} {s : Stage}
    {t : Passage} (hterms : t ∈ choicePassages terms c s → R c s t.events t.stage)
    (ht : t ∈ if terms.isEmpty then [⟨s, []⟩] else choicePassages terms c s) :
    R c s t.events t.stage := by
  split at ht
  · obtain rfl := List.mem_singleton.mp ht
    exact h.refl c s
  · exact hterms ht

end Strides

mutual

/-- **What holds for every move and what happens with it holds for every passage.** -/
theorem PathExpr.passages_of_strides (h : Strides places R) :
    ∀ (x : PathExpr) (c : Surroundings) (s : Stage), x.places c.repeated ⊆ places →
    ∀ t ∈ x.passages c s, R c s t.events t.stage
  | .term factors, c, s, hp, t, ht => by
    rw [PathExpr.passages] at ht
    rw [PathExpr.places] at hp
    exact term_passages_of_strides h factors c s hp t ht
  | .union terms, c, s, hp, t, ht => by
    rw [PathExpr.passages] at ht
    rw [PathExpr.places] at hp
    exact h.choice (choice_passages_of_strides h terms c s hp t) ht
  | .multiset terms, c, s, hp, t, ht => by
    rw [PathExpr.passages] at ht
    rw [PathExpr.places] at hp
    exact h.choice (choice_passages_of_strides h terms c s hp t) ht

theorem choice_passages_of_strides (h : Strides places R) :
    ∀ (terms : List (List Factor)) (c : Surroundings) (s : Stage),
    choicePlaces c.repeated terms ⊆ places → ∀ t ∈ choicePassages terms c s, R c s t.events t.stage
  | [], c, s, hp, t, ht => by
    rw [choicePassages] at ht
    cases ht
  | term :: rest, c, s, hp, t, ht => by
    rw [choicePassages] at ht
    rw [choicePlaces, List.append_subset] at hp
    rcases List.mem_append.mp ht with ht | ht
    · exact term_passages_of_strides h term c s hp.1 t ht
    · exact choice_passages_of_strides h rest c s hp.2 t ht

theorem term_passages_of_strides (h : Strides places R) :
    ∀ (factors : List Factor) (c : Surroundings) (s : Stage),
    termPlaces c.repeated factors ⊆ places → ∀ t ∈ termPassages factors c s, R c s t.events t.stage
  | [], c, s, hp, t, ht => by
    rw [termPassages] at ht
    obtain rfl := List.mem_singleton.mp ht
    exact h.refl c s
  | f :: rest, c, s, hp, u, hu => by
    rw [termPassages] at hu
    rw [termPlaces, List.append_subset] at hp
    obtain ⟨t, ht, hu⟩ := List.mem_flatMap.mp hu
    exact h.after (f.passages_of_strides h c s hp.1 t ht)
      (term_passages_of_strides h rest c t.stage hp.2) u hu

theorem Factor.passages_of_strides (h : Strides places R) :
    ∀ (f : Factor) (c : Surroundings) (s : Stage), f.places c.repeated ⊆ places →
    ∀ t ∈ f.passages c s, R c s t.events t.stage
  | .mk e none, c, s, hp, t, ht => by
    rw [Factor.passages] at ht
    rw [Factor.places, Option.isSome_none, Bool.or_false] at hp
    exact e.passages_of_strides h c s hp t ht
  | .mk e (some q), c, s, hp, t, ht => by
    rw [Factor.passages] at ht
    rw [Factor.places, Option.isSome_some, Bool.or_true] at hp
    exact h.repetitions (e.passages_of_strides h { c with repeated := true } · hp) q.lower q.upper 0 s t ht

theorem Element.passages_of_strides (h : Strides places R) :
    ∀ (e : Element) (c : Surroundings) (s : Stage), e.places c.repeated ⊆ places →
    ∀ t ∈ e.passages c s, R c s t.events t.stage
  | .node f, c, s, hp, t, ht => by
    rw [Element.places] at hp
    rw [Element.passages] at ht
    split at ht
    · next hadmits =>
      obtain rfl := List.mem_singleton.mp ht
      exact h.node (hp (by simp)) hadmits
    · cases ht
  | .edge pattern, c, s, hp, t, ht => by
    rw [Element.places] at hp
    rw [Element.passages] at ht
    split at ht
    · cases ht
    · next room hroom =>
      obtain ⟨edge, hedge, ht⟩ := List.mem_flatMap.mp ht
      split at ht
      · next hadmits =>
        obtain rfl := List.mem_singleton.mp ht
        rw [Bool.and_eq_true] at hadmits
        exact h.edge (hp (by simp)) hroom hedge hadmits.1 hadmits.2
      · cases ht
  | .group name mode body condition, c, s, hp, t, ht => by
    rw [Element.places, List.cons_subset] at hp
    rw [Element.passages] at ht
    obtain ⟨u, hu, ht⟩ := List.mem_flatMap.mp ht
    have hinside := body.passages_of_strides h
      { c with frames := ⟨mode.getD .walk, s.walk.length⟩ :: c.frames } s hp.2 u hu
    split at ht
    · next bindings hclose =>
      obtain rfl := List.mem_singleton.mp ht
      exact h.group hp.1 hinside hclose
    · cases ht

end

end Passages

/-- A relation between the stages before and after a part of a pattern that holds for each move at the
given places and can be chained. -/
structure Moves (places : List Place) (R : Surroundings → Stage → Stage → Prop) : Prop where
  refl : ∀ (c : Surroundings) (s : Stage), R c s s
  trans : ∀ {c : Surroundings} {s u v : Stage}, R c s u → R c u v → R c s v
  node : ∀ {c : Surroundings} {s : Stage} {f : NodePattern}, .node f c.repeated ∈ places →
    c.admits s f (.vertex s.walk.current) = true →
    R c s (s.bind f.name c.repeated (.vertex s.walk.current))
  edge : ∀ {c : Surroundings} {s : Stage} {pattern : EdgePattern} {room : Nat}
    {edge : EdgeId × VertexId}, .edge pattern c.repeated ∈ places → s.room = room + 1 →
    edge ∈ c.env.store.neighbors s.walk.current pattern.direction →
    c.admitsStep s.walk edge.1 edge.2 = true → c.admits s pattern.filler (.edge edge.1) = true →
    R c s (s.cross pattern c.repeated edge.1 edge.2 room)
  group : ∀ {c : Surroundings} {s u : Stage} {name : Option String} {mode : PathMode}
    {condition : Option Expr} {bindings : Bindings},
    .group name mode condition c.repeated ∈ places →
    R { c with frames := ⟨mode, s.walk.length⟩ :: c.frames } s u →
    Thread.closeGroup? c.env u.bindings (u.walk.since s.walk.length).toPath name condition c.repeated =
      some bindings → R c s { u with bindings := bindings }
  again : ∀ {c : Surroundings} {s u : Stage}, R { c with repeated := true } s u →
    R c s { u with taken := s.taken }

section Ways

variable {places : List Place} {R R' : Surroundings → Stage → Stage → Prop}

theorem Moves.and (h : Moves places R) (h' : Moves places R') :
    Moves places fun c s u => R c s u ∧ R' c s u where
  refl c s := ⟨h.refl c s, h'.refl c s⟩
  trans h₁ h₂ := ⟨h.trans h₁.1 h₂.1, h'.trans h₁.2 h₂.2⟩
  node hplace hadmits := ⟨h.node hplace hadmits, h'.node hplace hadmits⟩
  edge hplace hroom hedge hstep hadmits :=
    ⟨h.edge hplace hroom hedge hstep hadmits, h'.edge hplace hroom hedge hstep hadmits⟩
  group hplace hinside hclose :=
    ⟨h.group hplace hinside.1 hclose, h'.group hplace hinside.2 hclose⟩
  again hbody := ⟨h.again hbody.1, h'.again hbody.2⟩

/-- A relation that does not look at what happens on the way. -/
theorem Moves.strides (h : Moves places R) : Strides places fun c s _ u => R c s u where
  refl := h.refl
  trans := h.trans
  node := h.node
  edge := h.edge
  group := h.group
  again := h.again

theorem Moves.repetitions (h : Moves places R) {c : Surroundings} {body : Stage → List Stage}
    (hbody : ∀ s, ∀ u ∈ body s, R { c with repeated := true } s u) (lower : Nat) (upper : Option Nat)
    (n : Nat) (s : Stage) : ∀ u ∈ repetitions body lower upper n s, R c s u := by
  let quiet (s : Stage) : List Passage := (body s).map fun u => ⟨u, []⟩
  have hquiet : (fun s => (quiet s).map Passage.stage) = body := funext fun s => by
    rw [List.map_map]
    exact List.map_id _
  intro u hu
  rw [← hquiet, ← stages_repeatedPassages] at hu
  obtain ⟨t, ht, rfl⟩ := List.mem_map.mp hu
  refine h.strides.repetitions (fun s t ht => ?_) lower upper n s t ht
  obtain ⟨u, hu, rfl⟩ := List.mem_map.mp ht
  exact hbody s u hu

/-- **What holds for every move holds for every way.** -/
theorem PathExpr.ways_of_moves (h : Moves places R) (x : PathExpr) (c : Surroundings) (s : Stage)
    (hp : x.places c.repeated ⊆ places) : ∀ u ∈ x.ways c s, R c s u := by
  rw [← x.stages_passages]
  exact List.forall_mem_map.mpr (x.passages_of_strides h.strides c s hp)

theorem term_ways_of_moves (h : Moves places R) (factors : List Factor) (c : Surroundings) (s : Stage)
    (hp : termPlaces c.repeated factors ⊆ places) : ∀ u ∈ termWays factors c s, R c s u := by
  rw [← term_stages_passages]
  exact List.forall_mem_map.mpr (term_passages_of_strides h.strides factors c s hp)

theorem Factor.ways_of_moves (h : Moves places R) (f : Factor) (c : Surroundings) (s : Stage)
    (hp : f.places c.repeated ⊆ places) : ∀ u ∈ f.ways c s, R c s u := by
  rw [← f.stages_passages]
  exact List.forall_mem_map.mpr (f.passages_of_strides h.strides c s hp)

theorem Element.ways_of_moves (h : Moves places R) (e : Element) (c : Surroundings) (s : Stage)
    (hp : e.places c.repeated ⊆ places) : ∀ u ∈ e.ways c s, R c s u := by
  rw [← e.stages_passages]
  exact List.forall_mem_map.mpr (e.passages_of_strides h.strides c s hp)

/-! ### Invariants of what is bound -/

/-- Between two stages of a search the bindings keep an invariant. -/
def Stage.Keeps (env : Env) (inv : Bindings → Prop) (c : Surroundings) (s u : Stage) : Prop :=
  c.env = env → inv s.bindings → inv u.bindings

/-- What is kept when an element is bound and when a group is closed is kept by every move. -/
theorem Stage.keeps_moves {env : Env} {inv : Bindings → Prop}
    (hbind : ∀ (s : Stage) {l : Place} {f : Filler} {repeated : Bool} (x : ElementId), l ∈ places →
      l.filler? = some (f, repeated) →
      f.admits env s.bindings repeated (s.takenBy? f.name) x = true → inv s.bindings →
      inv (s.bind f.name repeated x).bindings)
    (hclose : ∀ {own later : Bindings} {sub : Path} {name : Option String} {mode : PathMode}
      {condition : Option Expr} {repeated : Bool}, .group name mode condition repeated ∈ places →
      Thread.closeGroup? env own sub name condition repeated = some later → inv own → inv later) :
    Moves places (Keeps env inv) where
  refl _ _ _ h := h
  trans h₁ h₂ hc h := h₂ hc (h₁ hc h)
  node {_ s _} hplace hadmits hc h := hbind s (.vertex s.walk.current) hplace rfl (hc ▸ hadmits) h
  edge {_ s _ room edge} hplace _ _ _ hadmits hc h :=
    hbind { s with walk := s.walk.extend edge.1 edge.2, room := room } (.edge edge.1) hplace rfl
      (hc ▸ hadmits) h
  group hplace hinside hgroup hc h := hclose hplace (hc ▸ hgroup) (hinside hc h)
  again hbody := hbody

end Ways

end GraphPatterns
