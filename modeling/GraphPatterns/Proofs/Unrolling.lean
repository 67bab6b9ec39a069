/-
Quantifiers are unrolled. If every repetition takes an edge, the ways to repeat something from `n` times
on are the ways to do it `k` times in a row, for all `k` that the bounds allow, in some order
(`repetitions_perm`). A part of a pattern without variables and conditions does the same under a
quantifier as outside, so the results of a term with the part under a quantifier are those of the terms
with `k` copies of it, put together (`PathPattern.matches_unrolled`).
-/
import GraphPatterns.Proofs.Endpoints
import GraphPatterns.Proofs.Moves
import GraphPatterns.Proofs.Starts
import GraphPatterns.Proofs.Validity
import Mathlib.Algebra.BigOperators.Group.Finset.Basic
import Mathlib.Data.List.Perm.Basic
import Mathlib.Order.Interval.Finset.Nat

namespace GraphPatterns

/-! ## Repetitions in a row -/

/-- The order of two choices does not matter for what they lead to in all. -/
theorem flatMap_flatMap_perm {α β γ : Type} (xs : List α) (ys : List β) (f : α → β → List γ) :
    (xs.flatMap fun x => ys.flatMap (f x)).Perm (ys.flatMap fun y => xs.flatMap (f · y)) := by
  induction xs with
  | nil => simp
  | cons x xs ih =>
    simp only [List.flatMap_cons]
    exact (ih.append_left _).trans (List.flatMap_append_perm ys (f x) _)

/-- The ways to do something so many times in a row. What grouped variables took is forgotten each
time. -/
def iterations (body : Stage → List Stage) : Nat → Stage → List Stage
  | 0, s => [s]
  | k + 1, s => (body s).flatMap fun u => iterations body k { u with taken := s.taken }

theorem flatMap_iterations_perm (body : Stage → List Stage) (least count : Nat) (s : Stage) :
    ((body s).flatMap fun u =>
        (List.range' least count).flatMap (iterations body · { u with taken := s.taken })).Perm
      ((List.range' (least + 1) count).flatMap (iterations body · s)) := by
  rw [Nat.add_comm least 1, ← List.map_add_range' least count 1, List.flatMap_map]
  simp only [Nat.add_comm 1, iterations]
  exact flatMap_flatMap_perm _ _ fun (u : Stage) k => iterations body k { u with taken := s.taken }

/-- **Repetitions are iterations.** After `n` repetitions, as many more are done in a row as the bounds
and the room allow. -/
theorem repetitions_perm {body : Stage → List Stage} (hbody : ∀ s, ∀ u ∈ body s, u.room < s.room)
    {lower : Nat} {upper : Option Nat} (hbounds : ∀ hi ∈ upper, lower ≤ hi) (n : Nat) (s : Stage)
    (most : Nat) (hupper : ∀ hi ∈ upper, hi = n + most) (hroom : upper = none → s.room ≤ most) :
    (repetitions body lower upper n s).Perm
      ((List.range' (lower - n) (most + 1 - (lower - n))).flatMap (iterations body · s)) := by
  have stuck {s : Stage} (hs : s.room = 0) : body s = [] :=
    List.eq_nil_iff_forall_not_mem.mpr fun u hu => by
      have := hbody s u hu
      omega
  induction n, s using repetitions.induct lower upper generalizing most with
  | case1 n s hn ih =>
    rw [repetitions, dif_pos hn]
    cases most with
    | zero =>
      -- No bound is left, so there is no room either.
      have hnone : upper = none := Option.eq_none_iff_forall_ne_some.mpr fun hi hhi => by
        have := hbounds hi hhi
        have := hupper hi hhi
        omega
      rw [stuck (Nat.le_zero.mp (hroom hnone)), show 0 + 1 - (lower - n) = 0 by omega]
      exact .nil
    | succ m =>
      have hrest := fun u hu => ih u m (fun hi hhi => by have := hupper hi hhi; omega)
        fun hnone => by
          have := hroom hnone
          have := hbody s u hu
          simp only
          omega
      refine (List.Perm.flatMap_left _ hrest).trans ?_
      rw [show m + 1 + 1 - (lower - n) = m + 1 - (lower - (n + 1)) by omega,
        show lower - n = lower - (n + 1) + 1 by omega]
      exact flatMap_iterations_perm body (lower - (n + 1)) (m + 1 - (lower - (n + 1))) s
  | case2 n s hn hlast =>
    rw [repetitions, dif_neg hn, if_pos hlast, show lower - n = 0 by omega,
      show most = 0 by have := hupper n hlast; omega]
    exact .refl _
  | case3 n s hn hlast ih =>
    rw [repetitions, dif_neg hn, if_neg hlast, show lower - n = 0 by omega, Nat.sub_zero,
      List.range'_succ, List.flatMap_cons, iterations, List.singleton_append]
    refine .cons s ?_
    cases most with
    | zero =>
      have hnone : upper = none := Option.eq_none_iff_forall_ne_some.mpr fun hi hhi =>
        hlast (by rw [hhi, hupper hi hhi, Nat.add_zero])
      rw [stuck (Nat.le_zero.mp (hroom hnone))]
      exact .nil
    | succ m =>
      have hrest : ∀ u ∈ body s, (if u.room < s.room then
          repetitions body lower upper (n + 1) { u with taken := s.taken } else []).Perm
          ((List.range' 0 (m + 1)).flatMap (iterations body · { u with taken := s.taken })) := by
        intro u hu
        have hless := hbody s u hu
        rw [if_pos hless]
        have hu := ih u hless m (fun hi hhi => by have := hupper hi hhi; omega)
          fun hnone => by
            have := hroom hnone
            simp only
            omega
        rwa [show lower - (n + 1) = 0 by omega, Nat.sub_zero] at hu
      exact (List.Perm.flatMap_left _ hrest).trans (flatMap_iterations_perm body 0 (m + 1) s)

/-! ## Parts without variables and conditions -/

/-- An element that declares no variable and has no WHERE clause, nor does anything in it. -/
def Element.IsAnonymous (e : Element) : Prop :=
  ∀ repeated, ∀ l ∈ e.places repeated, l.name? = none ∧ l.condition? = none

section Anonymous

theorem Filler.admits_anonymous {f : Filler} (hname : f.name = none) (hcondition : f.condition = none)
    (env : Env) (bindings : Bindings) (repeated repeated' : Bool) (x : ElementId) :
    f.admits env bindings repeated none x = f.admits env bindings repeated' none x := by
  have hagrees (repeated : Bool) : f.agrees env bindings repeated none x = true := by
    cases repeated <;> simp [agrees, hname]
  rw [admits, admits, hagrees, hagrees, hcondition]
  rfl

mutual

/-- Without variables and conditions it does not matter whether there is a quantifier around. -/
theorem PathExpr.ways_anonymous : ∀ (x : PathExpr) (c : Surroundings) (repeated : Bool),
    (∀ r, ∀ l ∈ x.places r, l.name? = none ∧ l.condition? = none) →
    x.ways { c with repeated := repeated } = x.ways c
  | .term factors, c, repeated, h => by
    funext s
    simp only [PathExpr.places] at h
    rw [PathExpr.ways, PathExpr.ways, term_ways_anonymous factors c repeated h]
  | .union terms, c, repeated, h => by
    funext s
    simp only [PathExpr.places] at h
    rw [PathExpr.ways, PathExpr.ways, choice_ways_anonymous terms c repeated h]
  | .multiset terms, c, repeated, h => by
    funext s
    simp only [PathExpr.places] at h
    rw [PathExpr.ways, PathExpr.ways, choice_ways_anonymous terms c repeated h]

theorem choice_ways_anonymous : ∀ (terms : List (List Factor)) (c : Surroundings) (repeated : Bool),
    (∀ r, ∀ l ∈ choicePlaces r terms, l.name? = none ∧ l.condition? = none) →
    choiceWays terms { c with repeated := repeated } = choiceWays terms c
  | [], c, repeated, h => by
    funext s
    rw [choiceWays, choiceWays]
  | t :: rest, c, repeated, h => by
    funext s
    simp only [choicePlaces, List.forall_mem_append] at h
    rw [choiceWays, choiceWays, term_ways_anonymous t c repeated fun r => (h r).1,
      choice_ways_anonymous rest c repeated fun r => (h r).2]

theorem term_ways_anonymous : ∀ (factors : List Factor) (c : Surroundings) (repeated : Bool),
    (∀ r, ∀ l ∈ termPlaces r factors, l.name? = none ∧ l.condition? = none) →
    termWays factors { c with repeated := repeated } = termWays factors c
  | [], c, repeated, h => by
    funext s
    rw [termWays, termWays]
  | f :: rest, c, repeated, h => by
    funext s
    simp only [termPlaces, List.forall_mem_append] at h
    rw [termWays, termWays, f.ways_anonymous c repeated fun r => (h r).1,
      term_ways_anonymous rest c repeated fun r => (h r).2]

theorem Factor.ways_anonymous : ∀ (f : Factor) (c : Surroundings) (repeated : Bool),
    (∀ r, ∀ l ∈ f.places r, l.name? = none ∧ l.condition? = none) →
    f.ways { c with repeated := repeated } = f.ways c
  | .mk e none, c, repeated, h => by
    funext s
    simp only [Factor.places, Option.isSome_none, Bool.or_false] at h
    rw [Factor.ways, Factor.ways, e.ways_anonymous c repeated h]
  | .mk e (some q), c, repeated, h => by
    funext s
    rw [Factor.ways, Factor.ways]

theorem Element.ways_anonymous : ∀ (e : Element) (c : Surroundings) (repeated : Bool), e.IsAnonymous →
    e.ways { c with repeated := repeated } = e.ways c
  | .node f, c, repeated, h => by
    funext s
    have hplace : Place.node f false ∈ (Element.node f).places false := by simp [Element.places]
    obtain ⟨hname, hcondition⟩ : f.name = none ∧ f.condition = none := h _ _ hplace
    have htaken : s.takenBy? f.name = none := by rw [hname]; rfl
    have hadmits (x : ElementId) : Surroundings.admits { c with repeated := repeated } s f x =
        c.admits s f x := by
      rw [Surroundings.admits, Surroundings.admits, htaken]
      exact Filler.admits_anonymous hname hcondition ..
    simp only [Element.ways, hadmits, hname]
    rfl
  | .edge pattern, c, repeated, h => by
    funext s
    have hplace : Place.edge pattern false ∈ (Element.edge pattern).places false := by
      simp [Element.places]
    obtain ⟨hname, hcondition⟩ : pattern.filler.name = none ∧ pattern.filler.condition = none :=
      h _ _ hplace
    have htaken : s.takenBy? pattern.filler.name = none := by rw [hname]; rfl
    have hadmits (x : ElementId) : Surroundings.admits { c with repeated := repeated } s pattern.filler x =
        c.admits s pattern.filler x := by
      rw [Surroundings.admits, Surroundings.admits, htaken]
      exact Filler.admits_anonymous hname hcondition ..
    have hcross (e : EdgeId) (v : VertexId) (room : Nat) :
        s.cross pattern repeated e v room = s.cross pattern c.repeated e v room := by
      rw [Stage.cross, Stage.cross, hname]
      rfl
    simp only [Element.ways, hadmits, hcross]
    rfl
  | .group name mode body condition, c, repeated, h => by
    funext s
    have hplaces (r : Bool) : ∀ l ∈ Place.group name (mode.getD .walk) condition r :: body.places r,
        l.name? = none ∧ l.condition? = none := by
      have := h r
      rwa [Element.places] at this
    obtain ⟨hname, hcondition⟩ : name = none ∧ condition = none := hplaces false _ List.mem_cons_self
    subst hname hcondition
    have hbody (c : Surroundings) := body.ways_anonymous c repeated fun r l hl =>
      hplaces r l (List.mem_cons_of_mem _ hl)
    rw [Element.ways, Element.ways]
    have hinside := hbody { c with frames := ⟨mode.getD .walk, s.walk.length⟩ :: c.frames }
    simp only [hinside, Thread.closeGroup?]
    rfl

end

end Anonymous

/-! ## What moves keep -/

@[simp] theorem Stage.room_bind (s : Stage) (name : Option String) (repeated : Bool) (x : ElementId) :
    (s.bind name repeated x).room = s.room := by
  unfold bind
  split
  · rfl
  · split
    · rfl
    · split <;> rfl

/-- Every edge of a walk takes some of the room. -/
theorem Stage.room_moves (places : List Place) :
    Moves places fun _ s u => u.walk.length + u.room = s.walk.length + s.room where
  refl _ _ := rfl
  trans h₁ h₂ := h₂.trans h₁
  node _ _ := by rw [Stage.walk_bind, Stage.room_bind]
  edge _ hroom _ _ _ := by
    rw [Stage.cross, Stage.walk_bind, Stage.room_bind, Walk.length_extend, hroom]
    simp only
    omega
  group _ hinside _ := hinside
  again hbody := hbody

/-- Where no variable is declared, nothing is taken for one. -/
theorem Stage.taken_moves {places : List Place} (h : ∀ l ∈ places, l.name? = none) :
    Moves places fun _ s u => u.taken = s.taken where
  refl _ _ := rfl
  trans h₁ h₂ := h₂.trans h₁
  node {_ _ f} hplace _ := by
    have hname : f.name = none := h _ hplace
    rw [hname]
    rfl
  edge {_ _ pattern _ _} hplace _ _ _ _ := by
    have hname : pattern.filler.name = none := h _ hplace
    rw [Stage.cross, hname]
    rfl
  group _ hinside _ := hinside
  again _ := rfl

/-! ## Terms -/

theorem termWays_append (xs ys : List Factor) (c : Surroundings) (s : Stage) :
    termWays (xs ++ ys) c s = (termWays xs c s).flatMap (termWays ys c) := by
  induction xs generalizing s with
  | nil => rw [List.nil_append, termWays, List.flatMap_singleton]
  | cons f xs ih =>
    rw [List.cons_append, termWays, termWays, List.flatMap_assoc]
    exact List.flatMap_congr fun u _ => ih u

theorem termPlaces_append (repeated : Bool) (xs ys : List Factor) :
    termPlaces repeated (xs ++ ys) = termPlaces repeated xs ++ termPlaces repeated ys := by
  induction xs with
  | nil => rfl
  | cons f xs ih => rw [List.cons_append, termPlaces, termPlaces, ih, List.append_assoc]

theorem termQuantifiers_append (xs ys : List Factor) :
    termQuantifiers (xs ++ ys) = termQuantifiers xs ++ termQuantifiers ys := by
  induction xs with
  | nil => rfl
  | cons f xs ih => rw [List.cons_append, termQuantifiers, termQuantifiers, ih, List.append_assoc]

theorem termMentions_append (xs ys : List Factor) :
    termMentions (xs ++ ys) = termMentions xs ++ termMentions ys := by
  induction xs with
  | nil => rfl
  | cons f xs ih => rw [List.cons_append, termMentions, termMentions, ih, List.append_assoc]

theorem mem_term_iff {α : Type} {has : Factor → List α} {haveAll : List Factor → List α}
    (hnil : haveAll [] = []) (hcons : ∀ f rest, haveAll (f :: rest) = has f ++ haveAll rest)
    {t : List Factor} {x : α} : x ∈ haveAll t ↔ ∃ f ∈ t, x ∈ has f := by
  induction t with
  | nil => simp [hnil]
  | cons f t ih => simp [hcons, ih]

theorem mem_termPlaces {repeated : Bool} {t : List Factor} {l : Place} :
    l ∈ termPlaces repeated t ↔ ∃ f ∈ t, l ∈ f.places repeated :=
  mem_term_iff rfl fun _ _ => by rw [termPlaces]

theorem mem_termQuantifiers {t : List Factor} {q : Quantifier} :
    q ∈ termQuantifiers t ↔ ∃ f ∈ t, q ∈ f.quantifiers :=
  mem_term_iff rfl fun _ _ => by rw [termQuantifiers]

theorem mem_termMentions {t : List Factor} {m : Mention} :
    m ∈ termMentions t ↔ ∃ f ∈ t, m ∈ f.mentions :=
  mem_term_iff rfl fun _ _ => by rw [termMentions]

/-- Copies of a part without variables are iterations of its ways under a quantifier. -/
theorem termWays_replicate {e : Element} (he : e.IsAnonymous) (c : Surroundings) (k : Nat) (s : Stage) :
    termWays (List.replicate k (.mk e none)) c s =
      iterations (e.ways { c with repeated := true }) k s := by
  rw [e.ways_anonymous c true he]
  induction k generalizing s with
  | zero => rw [List.replicate_zero, termWays, iterations]
  | succ k ih =>
    rw [List.replicate_succ, termWays, iterations, Factor.ways]
    refine List.flatMap_congr fun u hu => ?_
    have htaken : u.taken = s.taken :=
      e.ways_of_moves (Stage.taken_moves fun l hl => (he _ l hl).1) c s (List.Subset.refl _) u hu
    rw [ih, ← htaken]

/-! ## Patterns -/

/-- An element of which every match in the given surroundings takes an edge. -/
def Element.Progresses (env : Env) (e : Element) : Prop :=
  ∀ c : Surroundings, c.env = env → ∀ s, ∀ u ∈ e.ways c s, s.walk.length < u.walk.length

/-- All paths of a term, under the name and in the mode of a path pattern. -/
def PathPattern.allOf (p : PathPattern) (t : Term) : PathPattern :=
  { p with selector := some .all, expr := .term t }

theorem Element.room_lt {e : Element} {c : Surroundings} {s u : Stage} (hu : u ∈ e.ways c s)
    (hlonger : s.walk.length < u.walk.length) : u.room < s.room := by
  have hspent := e.ways_of_moves (Stage.room_moves _) c s (List.Subset.refl _) u hu
  omega

/-- **The ways of a quantifier** are those of all numbers of copies that it allows. -/
theorem Factor.ways_unrolled {e : Element} (he : e.IsAnonymous) {c : Surroundings}
    (hprogress : e.Progresses c.env) {q : Quantifier} (hbounds : ∀ hi ∈ q.upper, q.lower ≤ hi) {most : Nat}
    {s : Stage} (hroom : s.room ≤ most) :
    ((Factor.mk e (some q)).ways c s).Perm
      ((List.range' q.lower (q.upper.getD most + 1 - q.lower)).flatMap fun k =>
        termWays (List.replicate k (.mk e none)) c s) := by
  have hless (s : Stage) : ∀ u ∈ e.ways { c with repeated := true } s, u.room < s.room := fun u hu =>
    Element.room_lt hu (hprogress { c with repeated := true } rfl s u hu)
  rw [Factor.ways]
  simp only [termWays_replicate he]
  exact repetitions_perm hless hbounds 0 s (q.upper.getD most)
    (fun hi hhi => by rw [Option.mem_def.mp hhi, Option.getD_some, Nat.zero_add])
    fun hnone => by rwa [hnone]

theorem groupVariables_allOf (p : PathPattern) (before after : Term) {middle middle' : Term}
    (h : ∀ l ∈ termPlaces false middle, l.name? = none) (h' : ∀ l ∈ termPlaces false middle', l.name? = none) :
    (Program.compile (p.allOf (before ++ middle ++ after))).groupVariables =
      (Program.compile (p.allOf (before ++ middle' ++ after))).groupVariables := by
  have none_of {t : Term} (h : ∀ l ∈ termPlaces false t, l.name? = none) :
      (termPlaces false t).filterMap Place.groupVariable? = [] :=
    List.filterMap_eq_nil_iff.mpr fun l hl => Option.eq_none_iff_forall_ne_some.mpr fun v hv => by
      have := l.name?_of_groupVariable? hv
      rw [h l hl] at this
      cases this
  have key (t : Term) : (p.allOf t).places = termPlaces false t := by
    rw [PathPattern.places, PathPattern.allOf, PathExpr.places]
  rw [PathPattern.groupVariables_compile, PathPattern.groupVariables_compile, key, key,
    termPlaces_append, termPlaces_append, termPlaces_append, termPlaces_append]
  simp only [List.filterMap_append, none_of h, none_of h']

theorem Stage.solution?_congr {p p' : Program} (hgroups : p.groupVariables = p'.groupVariables)
    (hname : p.name = p'.name) (env : Env) :
    Stage.solution? env p = Stage.solution? env p' := by
  funext s
  rw [solution?, solution?, Search.solution?, Search.solution?, Search.closeGroups?, Search.closeGroups?,
    hname, hgroups]

/-- What it takes for a term to make sense. -/
theorem PathPattern.valid_allOf_iff {p : PathPattern} {t : Term} {store : Store} {strict : Bool}
    {bound kinds : VariableKinds} :
    (p.allOf t).toGraphPattern.Valid store strict bound kinds ↔
      (∀ q ∈ termQuantifiers t, q.check = .ok ()) ∧
      VariableKinds.ofDeclarations (p.allOf t).declarations = .ok kinds ∧
      (∀ entry ∈ bound, kinds.checkBound entry = .ok ()) ∧
      ∀ m ∈ termMentions t, m.check store strict kinds bound = .ok () := by
  have hmentions : (p.allOf t).toGraphPattern.mentions = termMentions t := by
    rw [GraphPattern.mentions, toGraphPattern, List.flatMap_singleton, conditionMentions, List.append_nil,
      allOf, PathExpr.mentions]
  have hquantifiers : (p.allOf t).expr.quantifiers = termQuantifiers t := by
    rw [allOf, PathExpr.quantifiers]
  constructor
  · rintro ⟨hqs, hds, hbefore, hms⟩
    simp only [toGraphPattern, List.flatMap_singleton, hquantifiers] at hqs hds
    exact ⟨hqs, hds, hbefore, hmentions ▸ hms⟩
  · rintro ⟨hqs, hds, hbefore, hms⟩
    refine ⟨?_, ?_, hbefore, hmentions ▸ hms⟩
    · simpa only [toGraphPattern, List.flatMap_singleton, hquantifiers] using hqs
    · simpa only [toGraphPattern, List.flatMap_singleton] using hds

/-- Another part in the middle of a term makes sense as well, if it has no other quantifiers and
mentions, and like the first one no variables. -/
theorem GraphPattern.Valid.middle {p : PathPattern} {before after middle : Term} {store : Store}
    {strict : Bool} {bound kinds : VariableKinds} (middle' : Term)
    (h : (p.allOf (before ++ middle ++ after)).toGraphPattern.Valid store strict bound kinds)
    (hquantifiers : ∀ q ∈ termQuantifiers middle', q ∈ termQuantifiers middle ∨ q.check = .ok ())
    (hnone : ∀ l ∈ termPlaces false middle, l.name? = none)
    (hnone' : ∀ l ∈ termPlaces false middle', l.name? = none)
    (hmentions : termMentions middle' ⊆ termMentions middle) :
    (p.allOf (before ++ middle' ++ after)).toGraphPattern.Valid store strict bound kinds := by
  have hdeclares {t : Term} (h : ∀ l ∈ termPlaces false t, l.name? = none) :
      (termPlaces false t).flatMap Place.declaration = [] := by
    refine List.flatMap_eq_nil_iff.mpr fun l hl => ?_
    rw [← List.map_eq_nil_iff (f := Declaration.name), l.names_declaration, h l hl]
    rfl
  have hsame : (p.allOf (before ++ middle' ++ after)).declarations =
      (p.allOf (before ++ middle ++ after)).declarations := by
    simp only [PathPattern.declarations, PathPattern.allOf, PathExpr.declarations, term_declarations_eq,
      termPlaces_append, List.flatMap_append, hdeclares hnone, hdeclares hnone']
  obtain ⟨hqs, hds, hbefore, hms⟩ := PathPattern.valid_allOf_iff.mp h
  simp only [termQuantifiers_append, termMentions_append, List.forall_mem_append] at hqs hms
  refine PathPattern.valid_allOf_iff.mpr ⟨?_, hsame ▸ hds, hbefore, ?_⟩
  · simp only [termQuantifiers_append, List.forall_mem_append]
    exact ⟨⟨hqs.1.1, fun q hq => (hquantifiers q hq).elim (hqs.1.2 q) id⟩, hqs.2⟩
  · simp only [termMentions_append, List.forall_mem_append]
    exact ⟨⟨hms.1.1, fun m hm => hms.1.2 m (hmentions hm)⟩, hms.2⟩

section Unrolled

variable (p : PathPattern) (before after : Term) {e : Element}

theorem Element.IsAnonymous.places_replicate (he : e.IsAnonymous) (k : Nat) :
    ∀ l ∈ termPlaces false (List.replicate k (.mk e none)), l.name? = none := by
  intro l hl
  obtain ⟨f, hf, hl⟩ := mem_termPlaces.mp hl
  rw [List.eq_of_mem_replicate hf, Factor.places] at hl
  exact (he _ l hl).1

theorem Element.IsAnonymous.places_quantified (he : e.IsAnonymous) (q : Quantifier) :
    ∀ l ∈ termPlaces false [.mk e (some q)], l.name? = none := by
  intro l hl
  rw [termPlaces, termPlaces, List.append_nil, Factor.places] at hl
  exact (he _ l hl).1

theorem PathPattern.ways_unrolled {g : Graph} {env : Env} (hg : g.Indexed) (hstore : env.store = g.store)
    (he : e.IsAnonymous) (hprogress : e.Progresses env) {q : Quantifier}
    (hbounds : ∀ hi ∈ q.upper, q.lower ≤ hi) (base : Bindings) (limit : Nat) :
    ((p.allOf (before ++ [.mk e (some q)] ++ after)).ways env base limit).Perm
      ((List.range' q.lower (q.upper.getD limit + 1 - q.lower)).flatMap fun k =>
        (p.allOf (before ++ List.replicate k (.mk e none) ++ after)).ways env base limit) := by
  let c : Surroundings := ⟨env, p.modeInForce, [], false⟩
  have hfrom (middle : Term) : (p.allOf (before ++ middle ++ after)).waysFrom env base limit = fun v =>
      (termWays before c (.start v base limit)).flatMap fun s =>
        (termWays middle c s).flatMap (termWays after c) := by
    funext v
    rw [waysFrom, allOf, PathExpr.ways, termWays_append, termWays_append, List.flatMap_assoc]
    rfl
  have hsingle (s : Stage) : termWays [.mk e (some q)] c s = (Factor.mk e (some q)).ways c s := by
    rw [termWays]
    simp only [termWays, List.flatMap_singleton']
  simp only [ways_everywhere hg hstore, hfrom, hsingle]
  refine .trans (List.Perm.flatMap_left _ fun v _ => ?_) (flatMap_flatMap_perm _ _ _)
  refine .trans (List.Perm.flatMap_left _ fun s hs => ?_) (flatMap_flatMap_perm _ _ _)
  have hspent := term_ways_of_moves (Stage.room_moves _) before c (.start v base limit)
    (List.Subset.refl _) s hs
  have hroom : s.room ≤ limit := by
    have hstart : (Stage.start v base limit).walk.length + (Stage.start v base limit).room = limit :=
      Nat.zero_add _
    omega
  rw [← List.flatMap_assoc]
  exact (Factor.ways_unrolled he (c := c) hprogress hbounds hroom).flatMap_right _

/-- **Quantifiers are unrolled.** Take a term with a part in it that declares no variable, has no WHERE
clause and takes an edge with every match. If the term makes sense with one copy of the part and the
bounds are not crossed, it makes sense with the part under the quantifier and with any number of copies;
and its results under the quantifier are those with `k` copies, for all `k` from the lower bound to the
upper one, or to the greatest length where there is none. -/
theorem PathPattern.matches_unrolled (e : Element)
    (q : Quantifier) {g : Graph} (config : MatchConfig) (seed : Bindings) {kinds : VariableKinds}
    (hg : g.Built) (hmax : config.maxSteps = none) (he : e.IsAnonymous)
    (hprogress : e.Progresses ⟨g.store, config, seed⟩) (hbounds : ∀ hi ∈ q.upper, q.lower ≤ hi)
    (hvalid : (p.allOf (before ++ [.mk e none] ++ after)).toGraphPattern.validate g.store
      config.strictCatalog seed.kinds = .ok kinds) :
    ∃ (found : List Match) (copies : Nat → List Match),
      ((p.allOf (before ++ [.mk e (some q)] ++ after)).toGraphPattern.matches
        ⟨g.store, config, seed⟩).map (·.1) = .ok found ∧
      (∀ k, ((p.allOf (before ++ List.replicate k (.mk e none) ++ after)).toGraphPattern.matches
        ⟨g.store, config, seed⟩).map (·.1) = .ok (copies k)) ∧
      (found : Multiset Match) =
        ∑ k ∈ Finset.Icc q.lower (q.upper.getD config.maxPathLength), (copies k : Multiset Match) := by
  set env : Env := ⟨g.store, config, seed⟩ with henv
  have hone := GraphPattern.validate_eq_ok_iff.mp hvalid
  have hcopy : ∀ l ∈ termPlaces false [.mk e none], l.name? = none := he.places_replicate 1
  have hquantified := hone.middle [.mk e (some q)] (fun q' hq' => by
    simp only [termQuantifiers, Factor.quantifiers, Option.toList_some, Option.toList_none,
      List.append_nil, List.nil_append, List.mem_append, List.mem_singleton] at hq' ⊢
    refine hq'.symm.imp_right fun heq => ?_
    subst heq
    cases q' <;> simp only [Quantifier.check]
    exact if_neg (Nat.not_lt.mpr (hbounds _ rfl))) hcopy (he.places_quantified q) (List.Subset.refl _)
  have hcopies (k : Nat) := hone.middle (List.replicate k (.mk e none))
    (fun q' hq' => by
      obtain ⟨f, hf, hq'⟩ := mem_termQuantifiers.mp hq'
      rw [List.eq_of_mem_replicate hf] at hq'
      exact .inl (mem_termQuantifiers.mpr ⟨_, List.mem_singleton_self _, hq'⟩))
    hcopy (he.places_replicate k) fun m hm => by
      obtain ⟨f, hf, hm⟩ := mem_termMentions.mp hm
      rw [List.eq_of_mem_replicate hf] at hm
      exact mem_termMentions.mpr ⟨_, List.mem_singleton_self _, hm⟩
  -- The program closes the same groups in all cases.
  let program := Program.compile (p.allOf (before ++ [.mk e (some q)] ++ after))
  have hsolution (k : Nat) :
      Stage.solution? env (.compile (p.allOf (before ++ List.replicate k (.mk e none) ++ after))) =
        Stage.solution? env program :=
    Stage.solution?_congr (groupVariables_allOf p before after (he.places_replicate k)
      (he.places_quantified q)) rfl env
  let results (middle : Term) : List Match :=
    (((p.allOf (before ++ middle ++ after)).ways env [] config.maxPathLength).filterMap
      (Stage.solution? env program)).map (·.toMatch seed)
  refine ⟨results [.mk e (some q)], fun k => results (List.replicate k (.mk e none)), ?_, fun k => ?_, ?_⟩
  · rw [matches_ways _ env hmax rfl, GraphPattern.validate_eq_ok_iff.mpr hquantified]
    rfl
  · rw [matches_ways _ env hmax rfl, GraphPattern.validate_eq_ok_iff.mpr (hcopies k), hsolution]
    rfl
  · have hways := p.ways_unrolled before after hg.indexed
      (show env.store = g.store from rfl) he hprogress hbounds [] config.maxPathLength
    have hall := (hways.filterMap (Stage.solution? env program)).map (·.toMatch seed)
    rw [List.filterMap_flatMap, List.map_flatMap] at hall
    have hsum (xs : List Nat) (f : Nat → List Match) :
        ((xs.flatMap f : List Match) : Multiset Match) = (xs.map fun k => (f k : Multiset Match)).sum := by
      induction xs with
      | nil => rfl
      | cons x xs ih => rw [List.flatMap_cons, ← Multiset.coe_add, ih, List.map_cons, List.sum_cons]
    rw [Multiset.coe_eq_coe.mpr hall, hsum]
    rfl

/-- Any number of edges, where there is one edge: none of them leads nowhere, and one leads over it. -/
theorem matches_unrolled_hop :
    let p : PathPattern := {}
    let e : Element := .edge { direction := .right }
    let node : Term := [.mk (.node {}) none]
    let env : Env := ⟨Graph.hop.store, { maxPathLength := 1 }, []⟩
    let results (middle : Term) : Except PatternError (List Match) :=
      ((p.allOf (node ++ middle ++ node)).toGraphPattern.matches env).map (·.1)
    let still : List Match := [⟨[], [⟨[⟨1⟩], []⟩]⟩, ⟨[], [⟨[⟨2⟩], []⟩]⟩]
    let hop : List Match := [⟨[], [⟨[⟨1⟩, ⟨2⟩], [⟨1⟩]⟩]⟩]
    Graph.hop.Built ∧ e.IsAnonymous ∧ e.Progresses env ∧
      (p.allOf (node ++ [.mk e none] ++ node)).toGraphPattern.validate env.store true [] = .ok [] ∧
      results (List.replicate 0 (.mk e none)) = .ok still ∧
      results (List.replicate 1 (.mk e none)) = .ok hop ∧
      ∃ found : List Match, results [.mk e (some .zeroOrMore)] = .ok found ∧
        (found : Multiset Match) = still + hop := by
  intro p e node env results still hop
  have he : e.IsAnonymous := fun repeated l hl => by
    simp only [e, Element.places, List.mem_singleton] at hl
    subst hl
    exact ⟨rfl, rfl⟩
  have hprogress : e.Progresses env := fun c _ s u hu => e.length_ways c s u hu
  have hvalid : (p.allOf (node ++ [.mk e none] ++ node)).toGraphPattern.validate env.store true [] =
      .ok [] := rfl
  have hnone : results (List.replicate 0 (.mk e none)) = .ok still :=
    (PathPattern.matches_ways _ env rfl rfl).trans rfl
  have hone : results (List.replicate 1 (.mk e none)) = .ok hop :=
    (PathPattern.matches_ways _ env rfl rfl).trans rfl
  refine ⟨Graph.built_hop, he, hprogress, hvalid, hnone, hone, ?_⟩
  obtain ⟨found, copies, hfound, hcopies, hsum⟩ :=
    p.matches_unrolled node node e .zeroOrMore env.config [] Graph.built_hop rfl he hprogress
      (fun hi hhi => by cases hhi) hvalid
  refine ⟨found, hfound, ?_⟩
  rw [hsum, show Finset.Icc (Quantifier.lower .zeroOrMore)
    ((Quantifier.upper .zeroOrMore).getD env.config.maxPathLength) = {0, 1} from rfl,
    Finset.sum_pair (by decide), Except.ok.inj ((hcopies 0).symm.trans hnone),
    Except.ok.inj ((hcopies 1).symm.trans hone)]

end Unrolled

end GraphPatterns
