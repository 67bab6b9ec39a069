/-
Every path that is reported is a legal walk. Each move of a pattern keeps the walk in the graph, keeps
what the modes in force ask of the part of the walk that they are about, and binds the variable of a
group to the segment that the group has walked (`legal_moves`). So do all ways of a pattern, and a
match is put together from such ways (`GraphPattern.matches_legal`).

Where a match goes through a group, the variable of the group stands for what is walked there, whatever
was bound before (`Trek.walked`). It may be bound although the match has avoided the group: the group
stands in one of several terms, and another path pattern declares the variable too
(`matches_segment_elsewhere`).
-/
import GraphPatterns.Proofs.Lookup
import GraphPatterns.Proofs.Validity
import GraphPatterns.Proofs.Walks

namespace GraphPatterns

/-! ## Bindings -/

/-- What a place may bind on a path: anything under the variable of a node or an edge, and under the
variable of a group a segment of the path that is as the mode of the group asks. -/
def Place.Binds (path : Path) (l : Place) (b : String × Bound) : Prop :=
  l.name? = some b.1 ∧
    match l with
    | .group _ mode _ _ => ∃ q, b.2 = .path q ∧ q.IsSegment path ∧ mode.Holds q
    | _ => True

theorem Stage.mem_bind {s : Stage} {name : Option String} {repeated : Bool} {x : ElementId}
    {b : String × Bound} (h : b ∈ (s.bind name repeated x).bindings) :
    b ∈ s.bindings ∨ name = some b.1 := by
  unfold bind at h
  split at h
  · exact .inl h
  · next name =>
    split at h
    · rcases Assoc.mem_insertNew h with rfl | h
      · exact .inr rfl
      · exact .inl h
    · split at h
      · exact .inl h
      · unfold Thread.collect at h
        split at h
        · rcases Assoc.mem_insert h with rfl | h
          · exact .inr rfl
          · exact .inl h
        · rcases Assoc.mem_insert h with rfl | h
          · exact .inr rfl
          · exact .inl h
        · exact .inl h

theorem Bindings.mem_bindPath? {bindings seed later : Bindings} {name : String} {p : Path}
    (h : bindings.bindPath? seed name p = some later) {b : String × Bound} (hb : b ∈ later) :
    b ∈ bindings ∨ b = (name, .path p) := by
  unfold bindPath? at h
  split at h
  · split at h
    · cases h
      exact .inl hb
    · cases h
  · cases h
    exact (Assoc.mem_insert hb).symm

theorem Thread.mem_closeGroup? {env : Env} {bindings later : Bindings} {sub : Path} {name : Option String}
    {condition : Option Expr} {grouped : Bool}
    (h : closeGroup? env bindings sub name condition grouped = some later) {b : String × Bound}
    (hb : b ∈ later) : b ∈ bindings ∨ name = some b.1 ∧ b.2 = .path sub := by
  unfold closeGroup? at h
  have hbound := Option.eq_some_of_filter_eq_some h
  cases name with
  | none =>
    cases hbound
    exact .inl hb
  | some name =>
    rcases Bindings.mem_bindPath? hbound hb with hb | rfl
    · exact .inl hb
    · exact .inr ⟨rfl, rfl⟩

/-! ## Legal moves -/

/-- The walk goes on in the store, the modes around it still hold, and what is new among the bindings was
bound at one of some places. -/
structure Legal (places : List Place) (c : Surroundings) (s u : Stage) : Prop where
  walk : Walk.Reaches c.env.store s.walk u.walk
  /-- The mode of the path counts from its start, that of a group from where the group was entered. -/
  modes : ∀ f ∈ ⟨c.mode, 0⟩ :: c.frames, f.start ≤ s.walk.length →
    f.mode.Holds (s.walk.since f.start).toPath → f.mode.Holds (u.walk.since f.start).toPath
  bindings : ∀ b ∈ u.bindings, b ∈ s.bindings ∨ ∃ l ∈ places, l.Binds u.walk.toPath b

/-- What was bound on the way may still be bound when the walk has gone on. -/
theorem Place.Binds.mono {store : Store} {w u : Walk} (h : w.Reaches store u) {l : Place}
    {b : String × Bound} (hl : l.Binds w.toPath b) : l.Binds u.toPath b := by
  obtain ⟨hname, hbound⟩ := hl
  refine ⟨hname, ?_⟩
  cases l with
  | node => trivial
  | edge => trivial
  | group name mode condition repeated =>
    obtain ⟨q, hq, hsegment, hmode⟩ := hbound
    exact ⟨q, hq, h.isSegment hsegment, hmode⟩

theorem Surroundings.admits_of_admitsStep {c : Surroundings} {w : Walk} {e : EdgeId} {v : VertexId}
    (h : c.admitsStep w e v = true) {f : Frame} (hf : f ∈ ⟨c.mode, 0⟩ :: c.frames) :
    f.mode.admits (w.since f.start).toPath e v = true := by
  obtain ⟨hmode, hframes⟩ := Bool.and_eq_true_iff.mp h
  rcases List.mem_cons.mp hf with rfl | hf
  · exact hmode
  · exact List.all_eq_true.mp hframes f hf

/-- **Every move of a pattern is legal.** -/
theorem legal_moves (places : List Place) : Moves places (Legal places) where
  refl c s := ⟨.refl, fun _ _ _ h => h, fun _ hb => .inl hb⟩
  trans {c s u v} h₁ h₂ := by
    refine ⟨h₁.walk.trans h₂.walk, fun f hf hstart h => ?_, fun b hb => ?_⟩
    · exact h₂.modes f hf (hstart.trans h₁.walk.length_le) (h₁.modes f hf hstart h)
    · rcases h₂.bindings b hb with hb | hnew
      · rcases h₁.bindings b hb with hb | ⟨l, hl, hbinds⟩
        · exact .inl hb
        · exact .inr ⟨l, hl, hbinds.mono h₂.walk⟩
      · exact .inr hnew
  node {c s f} hplace _ := by
    refine ⟨?_, fun _ _ _ h => ?_, fun b hb => ?_⟩
    · rw [Stage.walk_bind]
      exact .refl
    · rwa [Stage.walk_bind]
    · rcases Stage.mem_bind hb with hb | hname
      · exact .inl hb
      · exact .inr ⟨_, hplace, hname, trivial⟩
  edge {c s pattern room edge} hplace _ hedge hstep _ := by
    have hwalk : (s.cross pattern c.repeated edge.1 edge.2 room).walk =
        s.walk.extend edge.1 edge.2 := by rw [Stage.cross, Stage.walk_bind]
    refine ⟨?_, fun f hf hstart h => ?_, fun b hb => ?_⟩
    · rw [hwalk]
      exact .single ⟨hedge⟩
    · rw [hwalk, Walk.since_extend hstart]
      exact PathMode.holds_extend h (Surroundings.admits_of_admitsStep hstep hf)
    · rcases Stage.mem_bind hb with hb | hname
      · exact .inl hb
      · exact .inr ⟨_, hplace, hname, trivial⟩
  group {c s u name mode condition bindings} hplace hinside hclose := by
    refine ⟨hinside.walk, fun f hf => hinside.modes f ?_, fun b hb => ?_⟩
    · rcases List.mem_cons.mp hf with rfl | hf
      · exact List.mem_cons_self
      · exact List.mem_cons_of_mem _ (List.mem_cons_of_mem _ hf)
    · rcases Thread.mem_closeGroup? hclose hb with hb | ⟨hname, hpath⟩
      · exact hinside.bindings b hb
      · -- The group was entered with no edge of its own, so its mode has held since then.
        have hmode := hinside.modes ⟨mode, s.walk.length⟩ (by simp) (Nat.le_refl _)
          (by rw [Walk.since_length]; exact mode.holds_vertex _)
        exact .inr ⟨_, hplace, hname, _, hpath, Walk.isSegment_since hinside.walk.length_le, hmode⟩
  again h := ⟨h.walk, h.modes, h.bindings⟩

/-! ## Groups that are gone through -/

theorem Bindings.get?_of_bindPath? {bindings seed later : Bindings} {name : String} {p : Path}
    (h : bindings.bindPath? seed name p = some later) (hseed : seed.has name = false) :
    later.get? name = some (.path p) := by
  have hnone : seed.get? name = none := by rwa [Assoc.has, Option.isSome_eq_false_iff,
    Option.isNone_iff_eq_none] at hseed
  unfold bindPath? at h
  rw [hnone, Option.or_none] at h
  split at h
  · next there hthere =>
    split at h
    · next heq =>
      cases h
      rw [hthere, heq]
    · cases h
  · cases h
    rw [Assoc.get?_insert, if_pos rfl]

/-- The walk goes on, what is bound stays bound, and where a group with a variable has been gone through,
the variable stands for what was walked there, which is as the mode of the group asks. -/
structure Walked (places : List Place) (c : Surroundings) (s : Stage) (events : List Passage.Event)
    (u : Stage) : Prop where
  legal : Legal places c s u
  persists : s.bindings.Persists u.bindings
  segment : ∀ name sub, .walked name sub ∈ events → ∃ mode condition repeated,
    .group (some name) mode condition repeated ∈ places ∧ sub.IsSegment u.walk.toPath ∧ mode.Holds sub
  bound : ∀ name sub, .walked name sub ∈ events → c.env.seed.has name = false →
    u.bindings.get? name = some (.path sub)

theorem Walked.taking {places : List Place} {c : Surroundings} {s u : Stage} (hlegal : Legal places c s u)
    (hpersists : s.bindings.Persists u.bindings) {own : Option String} {repeated : Bool} {x : ElementId} :
    Walked places c s (s.taking own repeated x) u :=
  ⟨hlegal, hpersists, fun name sub h => absurd h (s.walked_not_mem_taking own repeated x name sub),
    fun name sub h => absurd h (s.walked_not_mem_taking own repeated x name sub)⟩

/-- **The variable of a group that is gone through stands for what is walked.** -/
theorem walked_strides (places : List Place) : Strides places (Walked places) where
  refl c s := ⟨(legal_moves places).refl c s, .refl _, nofun, nofun⟩
  trans {c s u v before later} h₁ h₂ := by
    refine ⟨(legal_moves places).trans h₁.legal h₂.legal, h₁.persists.trans h₂.persists,
      fun name sub h => ?_, fun name sub h hseed => ?_⟩
    · rcases List.mem_append.mp h with h | h
      · obtain ⟨mode, condition, repeated, hplace, hsegment, hmode⟩ := h₁.segment name sub h
        exact ⟨mode, condition, repeated, hplace, h₂.legal.walk.isSegment hsegment, hmode⟩
      · exact h₂.segment name sub h
    · rcases List.mem_append.mp h with h | h
      · exact h₂.persists.get? name _ (h₁.bound name sub h hseed) rfl
      · exact h₂.bound name sub h hseed
  node hplace hadmits :=
    .taking ((legal_moves places).node hplace hadmits) ((persists_moves places).node hplace hadmits)
  edge hplace hroom hedge hstep hadmits :=
    .taking ((legal_moves places).edge hplace hroom hedge hstep hadmits)
      ((persists_moves places).edge hplace hroom hedge hstep hadmits)
  group {c s u events own mode condition bindings} hplace hinside hclose := by
    have hpersists := Bindings.Persists.closeGroup? hclose
    refine ⟨(legal_moves places).group hplace hinside.legal hclose, hinside.persists.trans hpersists,
      fun name sub h => ?_, fun name sub h hseed => ?_⟩
    · rcases List.mem_append.mp h with h | h
      · exact hinside.segment name sub h
      · obtain ⟨rfl, rfl⟩ := Passage.mem_leaving h
        have hmode := hinside.legal.modes ⟨mode, s.walk.length⟩ (by simp) (Nat.le_refl _)
          (by rw [Walk.since_length]; exact mode.holds_vertex _)
        exact ⟨mode, condition, c.repeated, hplace,
          Walk.isSegment_since hinside.legal.walk.length_le, hmode⟩
    · rcases List.mem_append.mp h with h | h
      · exact hpersists.get? name _ (hinside.bound name sub h hseed) rfl
      · obtain ⟨rfl, rfl⟩ := Passage.mem_leaving h
        exact Bindings.get?_of_bindPath? (Option.eq_some_of_filter_eq_some hclose) hseed
  again h := ⟨(legal_moves places).again h.legal, h.persists, h.segment, h.bound⟩

/-- Whoever comes out of a group with a variable has gone through it. -/
theorem Element.exists_walked {name : String} {mode : Option PathMode} {body : PathExpr}
    {condition : Option Expr} {c : Surroundings} {s : Stage} {t : Passage}
    (h : t ∈ (Element.group (some name) mode body condition).passages c s) :
    ∃ sub, .walked name sub ∈ t.events := by
  rw [passages] at h
  obtain ⟨u, -, ht⟩ := List.mem_flatMap.mp h
  split at ht
  · obtain rfl := List.mem_singleton.mp ht
    exact ⟨_, List.mem_append_right _ (List.mem_singleton_self _)⟩
  · cases ht

/-- Along a trek the variable of a group that is gone through comes to stand for what is walked, and goes
on to. -/
theorem Trek.walked {env : Env} {ps : List PathPattern} {base last : Bindings} {ts : List Passage}
    (h : Trek env ps base ts last) {i : Nat} {p : PathPattern} {t : Passage} (hp : ps[i]? = some p)
    (ht : ts[i]? = some t) {name : String} {sub : Path} (hwalked : .walked name sub ∈ t.events) :
    (∃ mode condition repeated, .group (some name) mode condition repeated ∈ p.places ∧
      sub.IsSegment t.path ∧ mode.Holds sub) ∧
    (env.seed.has name = false → last.get? name = some (.path sub)) := by
  induction h generalizing i with
  | nil => cases ht
  | cons hu hrest ih =>
    cases i with
    | zero =>
      cases hp
      cases ht
      obtain ⟨v, -, hstrides⟩ := hu.strides (walked_strides p.places)
      refine ⟨hstrides.segment name sub hwalked, fun hseed => ?_⟩
      have hpersists := (Search.persists_solution? hu.solution).trans hrest.persists
      exact hpersists.get? name _ (hstrides.bound name sub hwalked hseed) rfl
    | succ i => exact ih hp ht

theorem GraphPattern.GoesThrough.walked {p : GraphPattern} {env : Env} {m : Match} {ts : List Passage}
    (h : p.GoesThrough env m ts) {i : Nat} {pattern : PathPattern} {path : Path} {t : Passage}
    (hi : p.paths[i]? = some pattern) (hpath : m.paths[i]? = some path) (ht : ts[i]? = some t)
    {name : String} {sub : Path} (hwalked : .walked name sub ∈ t.events) :
    (∃ mode condition repeated, .group (some name) mode condition repeated ∈ pattern.places ∧
      sub.IsSegment path ∧ mode.Holds sub) ∧
    (env.seed.has name = false → m.bindings.get? name = some (.path sub)) := by
  obtain ⟨last, htrek, hbindings⟩ := h.trek
  obtain ⟨hsegment, hbound⟩ := htrek.walked hi ht hwalked
  refine ⟨h.path_eq hpath ht ▸ hsegment, fun hseed => ?_⟩
  rw [hbindings, Join.get?_combine (htrek.growsTo.nodup List.nodup_nil), hbound hseed]
  rfl

/-! ## Solutions -/

/-- What a path pattern may bind on its path: the path itself under its own variable, and what its places
bind. -/
def PathPattern.Binds (p : PathPattern) (path : Path) (b : String × Bound) : Prop :=
  p.name = some b.1 ∧ b.2 = .path path ∨ ∃ l ∈ p.places, l.Binds path b

/-- A solution of a path pattern: a walk in the store that is as the mode asks, with what the path
pattern has bound on it. -/
structure PathPattern.LegalSolution (p : PathPattern) (env : Env) (base : Bindings) (x : Solution) :
    Prop where
  walk : x.path.IsWalkIn env.store
  length_le : x.path.length ≤ env.config.maxPathLength
  mode : p.modeInForce.Holds x.path
  bindings : ∀ b ∈ x.bindings, b ∈ base ∨ p.Binds x.path b

theorem Place.binds_of_groupVariable? {l : Place} {v : String × VariableKind}
    (h : l.groupVariable? = some v) (path : Path) (b : Bound) : l.Binds path (v.1, b) := by
  refine ⟨l.name?_of_groupVariable? h, ?_⟩
  cases l with
  | node => trivial
  | edge => trivial
  | group => cases h

theorem Search.mem_closeGroups? {env : Env} {p : PathPattern} {bindings later : Bindings}
    (h : closeGroups? env (.compile p) bindings = some later) {b : String × Bound} (hb : b ∈ later)
    (path : Path) : b ∈ bindings ∨ ∃ l ∈ p.places, l.Binds path b := by
  rw [of_closeGroups? h] at hb
  rcases Assoc.mem_foldl_insertNew hb with hb | ⟨v, hv, rfl⟩
  · exact .inl hb
  · obtain ⟨l, hl, hgroup⟩ := PathPattern.mem_groupVariables hv
    exact .inr ⟨l, hl, Place.binds_of_groupVariable? hgroup path _⟩

theorem Search.mem_solution? {env : Env} {p : PathPattern} {t : Thread} {x : Solution}
    (h : solution? env (.compile p) t = some x) {b : String × Bound} (hb : b ∈ x.bindings) :
    b ∈ t.bindings ∨ p.Binds x.path b := by
  obtain ⟨all, hclose, hx⟩ := of_solution? h
  have hbefore (hb : b ∈ all) : b ∈ t.bindings ∨ p.Binds x.path b :=
    (mem_closeGroups? hclose hb x.path).imp_right .inr
  rcases hx with rfl | ⟨name, later, hname, hbound, rfl⟩
  · exact hbefore hb
  · rcases Bindings.mem_bindPath? hbound hb with hb | rfl
    · exact hbefore hb
    · exact .inr (.inl ⟨hname, rfl⟩)

/-- **Every solution is legal.** -/
theorem PathPattern.legal_matched {p : PathPattern} {env : Env} {g : Graph} (hg : g.Indexed)
    (hstore : env.store = g.store) {base : Bindings} {x : Solution}
    (hx : x ∈ (Program.compile p).matched env base) : p.LegalSolution env base x := by
  have hlength := Program.length_matched_le hx
  obtain ⟨v, hv, u, hlegal, hx⟩ := exists_of_matched (legal_moves p.places) hx
  have hpath : x.path = u.walk.toPath := Search.solution?_path hx
  refine ⟨?_, hlength, ?_, fun b hb => ?_⟩
  · rw [hpath]
    refine hlegal.walk.isWalkIn (hstore ▸ hg.isConsistent) ⟨rfl, ?_, fun hk => by cases hk⟩
    exact List.cons_subset.mpr ⟨hstore ▸ startVertices_subset hg hstore _ _ hv, List.nil_subset _⟩
  · rw [hpath]
    exact hlegal.modes ⟨p.modeInForce, 0⟩ List.mem_cons_self (Nat.zero_le _)
      (p.modeInForce.holds_vertex v)
  · rcases Search.mem_solution? hx hb with hb | hbinds
    · rcases hlegal.bindings b hb with hb | ⟨l, hl, hbinds⟩
      · exact .inl hb
      · exact .inr (.inr ⟨l, hl, hpath ▸ hbinds⟩)
    · exact .inr hbinds

/-! ## Matches -/

/-- **Every solution of a chain is legal**, and what the chain has bound was bound before it or on one
of its paths. -/
theorem Chain.legal {env : Env} {g : Graph} (hg : g.Indexed) (hstore : env.store = g.store)
    (hmax : env.config.maxSteps = none) {ps : List PathPattern} {base last : Bindings}
    {xs : List Solution} (h : Chain env ps base xs last) :
    (∀ (i : Nat) (p : PathPattern) (x : Solution), ps[i]? = some p → xs[i]? = some x →
      x.path.IsWalkIn env.store ∧ x.path.length ≤ env.config.maxPathLength ∧ p.modeInForce.Holds x.path) ∧
    ∀ b ∈ last, b ∈ base ∨ ∃ (i : Nat) (p : PathPattern) (x : Solution),
      ps[i]? = some p ∧ xs[i]? = some x ∧ p.Binds x.path b := by
  induction h with
  | nil base => exact ⟨nofun, fun b hb => .inl hb⟩
  | @cons p ps base last x xs hx hxs ih =>
    obtain ⟨hlegal, hbound⟩ := ih
    have hfirst := p.legal_matched hg hstore (Program.mem_matched hg hstore hmax hx)
    refine ⟨fun i q y hq hy => ?_, fun b hb => ?_⟩
    · cases i with
      | zero =>
        cases hq
        cases hy
        exact ⟨hfirst.walk, hfirst.length_le, hfirst.mode⟩
      | succ i => exact hlegal i q y hq hy
    · rcases hbound b hb with hb | ⟨i, q, y, hq, hy, hbinds⟩
      · rcases hfirst.bindings b hb with hb | hbinds
        · exact .inl hb
        · exact .inr ⟨0, p, x, rfl, rfl, hbinds⟩
      · exact .inr ⟨i + 1, q, y, hq, hy, hbinds⟩

/-- A path as its path pattern asks for it: a walk in the store that can be printed, is not too long
and is as the mode asks. -/
structure PathPattern.Reports (p : PathPattern) (env : Env) (path : Path) : Prop where
  walk : path.IsWalkIn env.store
  printable : path.render?.isSome = true
  length_le : path.length ≤ env.config.maxPathLength
  mode : p.modeInForce.Holds path

/-- What a path pattern binds to the variable of a sub-path: its own path, or a segment of it that is
as the mode of a group with that variable asks. -/
def PathPattern.BindsPath (p : PathPattern) (path : Path) (name : String) (q : Path) : Prop :=
  p.name = some name ∧ q = path ∨
    ∃ mode condition repeated, .group (some name) mode condition repeated ∈ p.places ∧
      q.IsSegment path ∧ mode.Holds q

theorem PathPattern.Binds.bindsPath {p : PathPattern} {ds : List Declaration} {kinds : VariableKinds}
    (hkinds : VariableKinds.ofDeclarations ds = .ok kinds) (hp : p.declarations ⊆ ds) {name : String}
    (hpath : kinds.get? name = some .path) {path : Path} {b : Bound} (h : p.Binds path (name, b)) :
    ∃ q, b = .path q ∧ p.BindsPath path name q := by
  rcases h with ⟨hname, hb⟩ | ⟨l, hl, hname, hbound⟩
  · exact ⟨path, hb, .inl ⟨hname, rfl⟩⟩
  · have hkind : l.kind = .path :=
      Option.some.inj ((VariableKinds.kind_of_place hkinds hp hl hname).symm.trans hpath)
    obtain ⟨mode, condition, repeated, rfl⟩ := Place.kind_eq_path hname hkind
    obtain ⟨q, hq, hsegment, hmode⟩ := hbound
    exact ⟨q, hq, .inr ⟨mode, condition, repeated, hl, hsegment, hmode⟩⟩

/-- A match does not go through a group with a variable on the passage of one of its path patterns. -/
def GraphPattern.Avoids (p : GraphPattern) (env : Env) (m : Match) (i : Nat) (name : String) : Prop :=
  ∀ ts t sub, p.GoesThrough env m ts → ts[i]? = some t → .walked name sub ∉ t.events

/-- What a match that does not avoid a group has bound to its variable. -/
theorem GraphPattern.exists_segment_of_not_avoids {p : GraphPattern} {env : Env} {m : Match} {i : Nat}
    {name : String} (h : ¬p.Avoids env m i name) {pattern : PathPattern} {path : Path}
    (hi : p.paths[i]? = some pattern) (hpath : m.paths[i]? = some path)
    (hseed : env.seed.has name = false) :
    ∃ q mode condition repeated, m.bindings.get? name = some (.path q) ∧
      .group (some name) mode condition repeated ∈ pattern.places ∧ q.IsSegment path ∧ mode.Holds q := by
  simp only [Avoids, not_forall, not_not] at h
  obtain ⟨ts, t, sub, hts, ht, hwalked⟩ := h
  obtain ⟨⟨mode, condition, repeated, hplace, hsegment, hholds⟩, hsub⟩ := hts.walked hi hpath ht hwalked
  exact ⟨sub, mode, condition, repeated, hsub hseed, hplace, hsegment, hholds⟩

/-- **Every path that is reported is a legal walk.** A match of a pattern in a graph that was built by
operations has one path for each path pattern, as that asks for it. The variable of a group that is
declared once in its path pattern, and was not bound before the match, stands for a segment of the
path that is as the mode of the group asks. Only where the match has not gone through the group, and
another path pattern declares the variable too, it may stand for what that one binds. -/
theorem GraphPattern.matches_legal (p : GraphPattern) (g : Graph) (config : MatchConfig)
    (seed : Bindings) {found : List Match} (hg : g.Built)
    (h : (p.matches ⟨g.store, config, seed⟩).map (·.1) = .ok found) :
    ∀ m ∈ found, m.paths.length = p.paths.length ∧
      (∃ ts, p.GoesThrough ⟨g.store, config, seed⟩ m ts) ∧
      ∀ (i : Nat) (pattern : PathPattern) (path : Path), p.paths[i]? = some pattern →
        m.paths[i]? = some path → pattern.Reports ⟨g.store, config, seed⟩ path ∧
        ∀ (name : String) (mode : PathMode) (condition : Option Expr) (repeated : Bool) (b : Bound),
          .group (some name) mode condition repeated ∈ pattern.places →
          pattern.declaredNames.count name = 1 → seed.has name = false →
          m.bindings.get? name = some b → ∃ q, b = .path q ∧
            (q.IsSegment path ∧ mode.Holds q ∨ p.Avoids ⟨g.store, config, seed⟩ m i name ∧
              ∃ (j : Nat) (other : PathPattern) (path' : Path), j ≠ i ∧ p.paths[j]? = some other ∧
                m.paths[j]? = some path' ∧ other.BindsPath path' name q) := by
  obtain ⟨⟨kinds, hvalid⟩, hfound⟩ := mem_matches h
  intro m hm
  have hthrough := exists_goesThrough hg.indexed rfl h m hm
  obtain ⟨xs, last, hchain, rfl, -⟩ := hfound m hm
  obtain ⟨hlegal, hbound⟩ := hchain.legal hg.indexed rfl rfl
  have hxs {i : Nat} {path : Path} (hi : (xs.map (·.path))[i]? = some path) :
      ∃ x, xs[i]? = some x ∧ x.path = path := by
    rw [List.getElem?_map] at hi
    exact Option.map_eq_some_iff.mp hi
  refine ⟨by simp [hchain.length_eq], hthrough, fun i pattern path hi hpath => ?_⟩
  obtain ⟨x, hx, rfl⟩ := hxs hpath
  obtain ⟨hwalk, hlength, hmode⟩ := hlegal i pattern x hi hx
  refine ⟨⟨hwalk, Path.isSome_render? hwalk.length_vertices, hlength, hmode⟩, ?_⟩
  intro name mode condition repeated b hplace honce hseed hget
  have hkinds := kind_of_validate hvalid
  have hdeclared {j : Nat} {other : PathPattern} (hj : p.paths[j]? = some other) :
      other.declarations ⊆ p.paths.flatMap PathPattern.declarations :=
    PathPattern.declarations_subset (List.mem_of_getElem? hj)
  obtain ⟨hown, hunique⟩ := PathPattern.place_unique honce hplace rfl
  have hpathkind : kinds.get? name = some .path :=
    VariableKinds.kind_of_place hkinds (hdeclared hi) hplace rfl
  have hlast : (name, b) ∈ last := by
    rcases Join.mem_combine (Assoc.mem_of_get? hget) with hmem | hmem
    · rw [← Bool.not_eq_true, Assoc.has_iff_mem_keys] at hseed
      exact absurd (List.mem_map_of_mem hmem) hseed
    · exact hmem
  rcases hbound _ hlast with hbase | ⟨j, other, y, hj, hy, hbinds⟩
  · cases hbase
  obtain ⟨q, rfl, hq⟩ := hbinds.bindsPath hkinds (hdeclared hj) hpathkind
  refine ⟨q, rfl, ?_⟩
  by_cases hij : j = i
  · subst hij
    cases hi.symm.trans hj
    cases hx.symm.trans hy
    rcases hq with ⟨hname, -⟩ | ⟨mode', condition', repeated', hplace', hsegment, hholds⟩
    · exact absurd hname hown
    · cases hunique _ hplace' rfl
      exact .inl ⟨hsegment, hholds⟩
  by_cases havoids : p.Avoids ⟨g.store, config, seed⟩ ⟨Join.combine seed last, xs.map (·.path)⟩ i name
  · exact .inr ⟨havoids, j, other, y.path, hij, hj, by simp [hy], hq⟩
  -- A match that goes through the group has bound the variable to what it walks there.
  · obtain ⟨_, _, _, _, hwalked, hplace', hsegment, hholds⟩ :=
      exists_segment_of_not_avoids havoids hi hpath hseed
    cases hget.symm.trans hwalked
    cases hunique _ hplace' rfl
    exact .inl ⟨hsegment, hholds⟩

/-- A path over an edge either way, as a group with a variable. -/
def PathPattern.groupedEdge : PathPattern :=
  { expr := .term [.mk (.group (some "s") (some .trail) (.term [.mk (.node {}) none,
      .mk (.edge { direction := .any }) none, .mk (.node {}) none]) none) none] }

theorem exists_walked_groupedEdge {env : Env} {base : Bindings} {t : Passage} {limit : Nat}
    (h : t ∈ PathPattern.groupedEdge.passages env base limit) : ∃ sub, .walked "s" sub ∈ t.events := by
  obtain ⟨v, -, ht⟩ := List.mem_flatMap.mp h
  rw [show PathPattern.groupedEdge.expr = .term [_] from rfl, PathExpr.passages, termPassages] at ht
  obtain ⟨u, hu, ht⟩ := List.mem_flatMap.mp ht
  rw [termPassages, List.map_singleton, List.mem_singleton] at ht
  subst ht
  obtain ⟨sub, hsub⟩ := Element.exists_walked hu
  exact ⟨sub, List.mem_append_left _ hsub⟩

/-- The two ways over the edge. -/
def Path.hop : Path := ⟨[⟨1⟩, ⟨2⟩], [⟨1⟩]⟩
def Path.hopBack : Path := ⟨[⟨2⟩, ⟨1⟩], [⟨1⟩]⟩

theorem solutions_groupedEdge :
    (Program.compile .groupedEdge).solutions ⟨Graph.hop.store, { maxPathLength := 1 }, []⟩ [] =
      [⟨[("s", .path .hop)], .hop⟩, ⟨[("s", .path .hopBack)], .hopBack⟩] := by
  have hways : PathPattern.groupedEdge.ways ⟨Graph.hop.store, { maxPathLength := 1 }, []⟩ [] 1 =
      [⟨⟨⟨1⟩, [(⟨1⟩, ⟨2⟩)]⟩, [("s", .path .hop)], [], 0⟩,
        ⟨⟨⟨2⟩, [(⟨1⟩, ⟨1⟩)]⟩, [("s", .path .hopBack)], [], 0⟩] := rfl
  rw [Program.solutions_all rfl rfl, PathPattern.matched_ways]
  exact (congrArg (List.filterMap _) hways).trans rfl

theorem solutions_groupedEdge_bound {q : Path} (h : q ∈ [Path.hop, .hopBack]) :
    (Program.compile .groupedEdge).solutions ⟨Graph.hop.store, { maxPathLength := 1 }, []⟩
      [("s", .path q)] = [⟨[("s", .path q)], q⟩] := by
  rw [Program.solutions_all rfl rfl, PathPattern.matched_ways]
  rcases List.mem_pair.mp h with rfl | rfl
  · have hways : PathPattern.groupedEdge.ways ⟨Graph.hop.store, { maxPathLength := 1 }, []⟩
        [("s", .path .hop)] 1 = [⟨⟨⟨1⟩, [(⟨1⟩, ⟨2⟩)]⟩, [("s", .path .hop)], [], 0⟩] := rfl
    exact (congrArg (List.filterMap _) hways).trans rfl
  · have hways : PathPattern.groupedEdge.ways ⟨Graph.hop.store, { maxPathLength := 1 }, []⟩
        [("s", .path .hopBack)] 1 = [⟨⟨⟨2⟩, [(⟨1⟩, ⟨1⟩)]⟩, [("s", .path .hopBack)], [], 0⟩] := rfl
    exact (congrArg (List.filterMap _) hways).trans rfl

/-- Either way over the edge, both path patterns walk what the variable stands for: the second one
compares. -/
theorem matches_legal_hop :
    let p : GraphPattern := { paths := [.groupedEdge, .groupedEdge] }
    let env : Env := ⟨Graph.hop.store, { maxPathLength := 1 }, []⟩
    Graph.hop.Built ∧
      (p.matches env).map (·.1) = .ok [⟨[("s", .path .hop)], [.hop, .hop]⟩,
        ⟨[("s", .path .hopBack)], [.hopBack, .hopBack]⟩] ∧
      .group (some "s") .trail none false ∈ PathPattern.groupedEdge.places ∧
      PathPattern.groupedEdge.declaredNames.count "s" = 1 ∧
      ∀ q ∈ [Path.hop, .hopBack], PathPattern.groupedEdge.Reports env q ∧ q.IsSegment q ∧
        PathMode.trail.Holds q := by
  intro p env
  have hvalid : p.validate env.store true [] = .ok [("s", .path)] := rfl
  have hmatches : (p.matches env).map (·.1) = .ok [⟨[("s", .path .hop)], [.hop, .hop]⟩,
      ⟨[("s", .path .hopBack)], [.hopBack, .hopBack]⟩] := by
    have hall : (p.join env).all (p.paths.map .compile) = [⟨[("s", .path .hop)], [.hop, .hop]⟩,
        ⟨[("s", .path .hopBack)], [.hopBack, .hopBack]⟩] := by
      change (p.join env).results [.compile .groupedEdge, .compile .groupedEdge] [] [] = _
      rw [Join.results, show (p.join env).env = env from rfl, solutions_groupedEdge, List.flatMap_cons,
        List.flatMap_singleton, Join.results, Join.results, show (p.join env).env = env from rfl,
        solutions_groupedEdge_bound (by simp), solutions_groupedEdge_bound (by simp)]
      rfl
    exact (p.matches_all env rfl).trans ((congrArg (Except.map _) hvalid).trans (congrArg _ hall))
  have hplace : .group (some "s") .trail none false ∈ PathPattern.groupedEdge.places :=
    List.mem_cons_self
  refine ⟨Graph.built_hop, hmatches, hplace, rfl, fun q hq => ?_⟩
  have hm : (⟨[("s", .path q)], [q, q]⟩ : Match) ∈ [⟨[("s", .path .hop)], [.hop, .hop]⟩,
      ⟨[("s", .path .hopBack)], [.hopBack, .hopBack]⟩] := by
    rcases List.mem_pair.mp hq with rfl | rfl <;> simp
  obtain ⟨-, ⟨ts, hts⟩, hpaths⟩ :=
    p.matches_legal Graph.hop env.config [] Graph.built_hop hmatches _ hm
  obtain ⟨hreports, hbound⟩ := hpaths 1 .groupedEdge q rfl rfl
  obtain ⟨_, hsub, hwhere⟩ := hbound "s" .trail none false (.path q) hplace rfl rfl (by simp [Assoc.get?])
  cases hsub
  refine ⟨hreports, hwhere.resolve_right fun helse => ?_⟩
  -- The second path pattern is its group, so no match avoids it.
  obtain ⟨_, htrek, -⟩ := hts.trek
  cases htrek with
  | cons _ hrest =>
    cases hrest with
    | cons hu _ =>
      obtain ⟨sub, hsub⟩ := exists_walked_groupedEdge hu.mem
      exact helse.1 _ _ sub hts rfl hsub

/-- A path over an edge, as a group with a variable. -/
def PathPattern.groupedHop : PathPattern :=
  { expr := .term [.mk (.group (some "s") (some .trail) (.term [.mk (.node {}) none,
      .mk (.edge { direction := .right }) none, .mk (.node {}) none]) none) none] }

/-- A vertex, on its own or as a group with a variable. -/
def PathPattern.perhapsGrouped : PathPattern :=
  { expr := .union [[.mk (.node {}) none],
      [.mk (.group (some "s") none (.term [.mk (.node {}) none]) none) none]] }

theorem solutions_groupedHop :
    (Program.compile .groupedHop).solutions ⟨Graph.hop.store, { maxPathLength := 1 }, []⟩ [] =
      [⟨[("s", .path ⟨[⟨1⟩, ⟨2⟩], [⟨1⟩]⟩)], ⟨[⟨1⟩, ⟨2⟩], [⟨1⟩]⟩⟩] := by
  have hways : PathPattern.groupedHop.ways ⟨Graph.hop.store, { maxPathLength := 1 }, []⟩ [] 1 =
      [⟨⟨⟨1⟩, [(⟨1⟩, ⟨2⟩)]⟩, [("s", .path ⟨[⟨1⟩, ⟨2⟩], [⟨1⟩]⟩)], [], 0⟩] := rfl
  rw [Program.solutions_all rfl rfl, PathPattern.matched_ways]
  exact (congrArg (List.filterMap _) hways).trans rfl

/-- The first path pattern binds the variable to a path over an edge. The second one declares it once,
but its first term has no group, and that path is no segment of a single vertex. -/
theorem matches_segment_elsewhere :
    let p : GraphPattern := { paths := [.groupedHop, .perhapsGrouped] }
    let env : Env := ⟨Graph.hop.store, { maxPathLength := 1 }, []⟩
    let q : Path := ⟨[⟨1⟩, ⟨2⟩], [⟨1⟩]⟩
    Graph.hop.Built ∧
      (p.matches env).map (·.1) = .ok [⟨[("s", .path q)], [q, ⟨[⟨1⟩], []⟩]⟩,
        ⟨[("s", .path q)], [q, ⟨[⟨2⟩], []⟩]⟩] ∧
      .group (some "s") .walk none false ∈ PathPattern.perhapsGrouped.places ∧
      PathPattern.perhapsGrouped.declaredNames.count "s" = 1 ∧ ¬q.IsSegment ⟨[⟨1⟩], []⟩ := by
  intro p env q
  have hplace : .group (some "s") .walk none false ∈ PathPattern.perhapsGrouped.places :=
    List.mem_cons_of_mem _ List.mem_cons_self
  refine ⟨Graph.built_hop, ?_, hplace, rfl, ?_⟩
  · have hsecond : (Program.compile .perhapsGrouped).solutions env [("s", .path q)] =
        [⟨[("s", .path q)], ⟨[⟨1⟩], []⟩⟩, ⟨[("s", .path q)], ⟨[⟨2⟩], []⟩⟩] := by
      have hways : PathPattern.perhapsGrouped.ways env [("s", .path q)] 1 =
          [.start ⟨1⟩ [("s", .path q)] 1, .start ⟨2⟩ [("s", .path q)] 1] := rfl
      rw [Program.solutions_all rfl rfl, PathPattern.matched_ways]
      exact (congrArg (List.filterMap _) hways).trans rfl
    have hvalid : p.validate env.store true [] = .ok [("s", .path)] := rfl
    have hall : (p.join env).all (p.paths.map .compile) = [⟨[("s", .path q)], [q, ⟨[⟨1⟩], []⟩]⟩,
        ⟨[("s", .path q)], [q, ⟨[⟨2⟩], []⟩]⟩] := by
      change (p.join env).results [.compile .groupedHop, .compile .perhapsGrouped] [] [] = _
      rw [Join.results, show (p.join env).env = env from rfl, solutions_groupedHop,
        List.flatMap_singleton, Join.results, show (p.join env).env = env from rfl, hsecond]
      rfl
    exact (p.matches_all env rfl).trans ((congrArg (Except.map _) hvalid).trans (congrArg _ hall))
  · rintro ⟨-, n, hvertices, -⟩
    have hlength : 2 ≤ 1 - n := by simpa [q] using hvertices.length_le
    omega

end GraphPatterns
