/-
What the repeated factors of a pattern go through. A tour is a way of a pattern (`PathExpr.stages_tours`)
with the factors under quantifiers that it has gone through, in their order: where in the walk each of
them begins and ends, and where each of its repetitions does. What happens inside of a repetition is not
looked into, so a tour knows the repeated factors that are not inside another quantifier
(`PathExpr.repeats`). It goes through none of them twice, and leaves out none but those that stand in a
choice between terms (`PathExpr.accounts_tours`).
-/
import GraphPatterns.Proofs.Validity
import GraphPatterns.Proofs.Ways

namespace GraphPatterns

open scoped List

/-! ## Repetitions -/

/-- One repetition: how many edges the walk has before and after it. -/
structure Lap where
  start : Nat
  stop : Nat

/-- The ways to repeat something, as in `repetitions`, each with its repetitions. -/
def lappedRepetitions (body : Stage → List Stage) (lower : Nat) (upper : Option Nat) (n : Nat)
    (s : Stage) : List (Stage × List Lap) :=
  if h : n < lower then
    (body s).flatMap fun u =>
      (lappedRepetitions body lower upper (n + 1) { u with taken := s.taken }).map fun r =>
        (r.1, ⟨s.walk.length, u.walk.length⟩ :: r.2)
  else if upper = some n then [(s, [])]
  else
    (s, []) :: (body s).flatMap fun u =>
      if u.room < s.room then
        (lappedRepetitions body lower upper (n + 1) { u with taken := s.taken }).map fun r =>
          (r.1, ⟨s.walk.length, u.walk.length⟩ :: r.2)
      else []
termination_by (lower - n, s.room)
decreasing_by
  · exact .left _ _ (by omega)
  · have : lower - (n + 1) = lower - n := by omega
    rw [this]
    exact .right _ (by assumption)

/-- One repetition after another. What grouped variables took is forgotten each time. -/
inductive Laps (body : Stage → List Stage) : Stage → List Lap → Stage → Prop where
  | nil (s : Stage) : Laps body s [] s
  | again {s u v : Stage} {laps : List Lap} (hu : u ∈ body s)
    (h : Laps body { u with taken := s.taken } laps v) :
    Laps body s (⟨s.walk.length, u.walk.length⟩ :: laps) v

section Repetitions

variable {body : Stage → List Stage} {lower : Nat} {upper : Option Nat}

theorem map_fst_lappedRepetitions (n : Nat) (s : Stage) :
    (lappedRepetitions body lower upper n s).map (·.1) = repetitions body lower upper n s := by
  induction n, s using repetitions.induct lower upper with
  | case1 n s hn ih =>
    rw [lappedRepetitions, repetitions, dif_pos hn, dif_pos hn, List.map_flatMap]
    refine List.flatMap_congr fun u _ => ?_
    rw [List.map_map, ← ih u]
    rfl
  | case2 n s hn hupper =>
    rw [lappedRepetitions, repetitions, dif_neg hn, dif_neg hn, if_pos hupper, if_pos hupper]
    rfl
  | case3 n s hn hupper ih =>
    rw [lappedRepetitions, repetitions, dif_neg hn, dif_neg hn, if_neg hupper, if_neg hupper,
      List.map_cons, List.map_flatMap]
    refine congrArg (s :: ·) (List.flatMap_congr fun u _ => ?_)
    split
    · next hroom =>
      rw [List.map_map, ← ih u hroom]
      rfl
    · rfl

/-- They are repetitions one after another, and if the bounds are in order, their number is within them. -/
theorem laps_of_mem {n : Nat} {s : Stage} {r : Stage × List Lap}
    (hr : r ∈ lappedRepetitions body lower upper n s) : Laps body s r.2 r.1 ∧
      lower ≤ n + r.2.length ∧ ∀ hi ∈ upper, lower ≤ hi → n ≤ hi → n + r.2.length ≤ hi := by
  induction n, s using repetitions.induct lower upper generalizing r with
  | case1 n s hless ih =>
    rw [lappedRepetitions, dif_pos hless] at hr
    obtain ⟨u, hu, hr⟩ := List.mem_flatMap.mp hr
    obtain ⟨rest, hrest, rfl⟩ := List.mem_map.mp hr
    obtain ⟨hlaps, hlower, hupper⟩ := ih u hrest
    refine ⟨.again hu hlaps, ?_, fun hi hhi hordered _ => ?_⟩
    · rw [List.length_cons]
      omega
    · have := hupper hi hhi hordered (Nat.le_trans hless hordered)
      rw [List.length_cons]
      omega
  | case2 n s hless hlast =>
    rw [lappedRepetitions, dif_neg hless, if_pos hlast] at hr
    obtain rfl := List.mem_singleton.mp hr
    exact ⟨.nil s, Nat.le_of_not_lt hless, fun _ _ _ hn => hn⟩
  | case3 n s hless hlast ih =>
    rw [lappedRepetitions, dif_neg hless, if_neg hlast] at hr
    rcases List.mem_cons.mp hr with rfl | hr
    · exact ⟨.nil s, Nat.le_of_not_lt hless, fun _ _ _ hn => hn⟩
    · obtain ⟨u, hu, hr⟩ := List.mem_flatMap.mp hr
      split at hr
      · next hroom =>
        obtain ⟨rest, hrest, rfl⟩ := List.mem_map.mp hr
        obtain ⟨hlaps, hlower, hupper⟩ := ih u hroom hrest
        refine ⟨.again hu hlaps, ?_, fun hi hhi hordered hn => ?_⟩
        · rw [List.length_cons]
          omega
        · have hne : n ≠ hi := fun heq => hlast (heq ▸ hhi)
          have := hupper hi hhi hordered (by omega)
          rw [List.length_cons]
          omega
      · cases hr

end Repetitions

/-! ## Repeated factors -/

/-- A factor under a quantifier. -/
structure Repeated where
  element : Element
  quantifier : Quantifier

namespace Repeated

/-- The places of a repeated factor. -/
def places (r : Repeated) : List Place := r.element.places true

/-- The names that are declared in a repeated factor, one for each declaration. -/
def names (r : Repeated) : List String := r.places.filterMap Place.name?

theorem names_edge (pattern : EdgePattern) (q : Quantifier) :
    names ⟨.edge pattern, q⟩ = pattern.filler.name.toList := by
  rw [names, places, Element.places]
  cases hname : pattern.filler.name <;> simp [Place.name?, hname]

end Repeated

mutual

/-- The repeated factors of a pattern that are not inside another quantifier, from left to right: all of
them, or those that do not stand in a choice. -/
def PathExpr.repeats (inChoices : Bool) : PathExpr → List Repeated
  | .term factors => termRepeats inChoices factors
  | .union terms => if inChoices then choiceRepeats inChoices terms else []
  | .multiset terms => if inChoices then choiceRepeats inChoices terms else []

def choiceRepeats (inChoices : Bool) : List (List Factor) → List Repeated
  | [] => []
  | t :: rest => termRepeats inChoices t ++ choiceRepeats inChoices rest

def termRepeats (inChoices : Bool) : List Factor → List Repeated
  | [] => []
  | f :: rest => f.repeats inChoices ++ termRepeats inChoices rest

def Factor.repeats (inChoices : Bool) : Factor → List Repeated
  | .mk e none => e.repeats inChoices
  | .mk e (some q) => [⟨e, q⟩]

def Element.repeats (inChoices : Bool) : Element → List Repeated
  | .node _ => []
  | .edge _ => []
  | .group _ _ body _ => body.repeats inChoices

end

mutual

/-- The places of repeated factors are places of the pattern, in this order. -/
theorem PathExpr.places_repeats : ∀ (x : PathExpr) (repeated : Bool),
    (x.repeats true).flatMap Repeated.places <+ x.places repeated
  | .term factors, repeated => by
    rw [PathExpr.repeats, PathExpr.places]
    exact term_places_repeats factors repeated
  | .union terms, repeated => by
    rw [PathExpr.repeats, PathExpr.places, if_pos rfl]
    exact choice_places_repeats terms repeated
  | .multiset terms, repeated => by
    rw [PathExpr.repeats, PathExpr.places, if_pos rfl]
    exact choice_places_repeats terms repeated

theorem choice_places_repeats : ∀ (terms : List (List Factor)) (repeated : Bool),
    (choiceRepeats true terms).flatMap Repeated.places <+ choicePlaces repeated terms
  | [], repeated => by
    rw [choiceRepeats]
    exact List.nil_sublist _
  | t :: rest, repeated => by
    rw [choiceRepeats, choicePlaces, List.flatMap_append]
    exact (term_places_repeats t repeated).append (choice_places_repeats rest repeated)

theorem term_places_repeats : ∀ (factors : List Factor) (repeated : Bool),
    (termRepeats true factors).flatMap Repeated.places <+ termPlaces repeated factors
  | [], repeated => by
    rw [termRepeats]
    exact List.nil_sublist _
  | f :: rest, repeated => by
    rw [termRepeats, termPlaces, List.flatMap_append]
    exact (f.places_repeats repeated).append (term_places_repeats rest repeated)

theorem Factor.places_repeats : ∀ (f : Factor) (repeated : Bool),
    (f.repeats true).flatMap Repeated.places <+ f.places repeated
  | .mk e none, repeated => by
    rw [Factor.repeats, Factor.places]
    exact e.places_repeats (repeated || none.isSome)
  | .mk e (some q), repeated => by
    rw [Factor.repeats, Factor.places, Option.isSome_some, Bool.or_true, List.flatMap_singleton]
    exact List.Sublist.refl _

theorem Element.places_repeats : ∀ (e : Element) (repeated : Bool),
    (e.repeats true).flatMap Repeated.places <+ e.places repeated
  | .node f, repeated => by
    rw [Element.repeats]
    exact List.nil_sublist _
  | .edge pattern, repeated => by
    rw [Element.repeats]
    exact List.nil_sublist _
  | .group name mode body condition, repeated => by
    rw [Element.repeats, Element.places]
    exact (body.places_repeats repeated).trans (List.sublist_cons_self _ _)

end

theorem length_filter_names_le {α : Type} (names : α → List String) (name : String) (xs : List α) :
    (xs.filter fun x => name ∈ names x).length ≤ (xs.flatMap names).count name := by
  induction xs with
  | nil => exact Nat.le_refl _
  | cons x xs ih =>
    rw [List.flatMap_cons, List.count_append]
    by_cases hx : name ∈ names x
    · have hpos : 0 < (names x).count name := List.count_pos_iff.mpr hx
      rw [List.filter_cons_of_pos (by simpa using hx), List.length_cons]
      omega
    · rw [List.filter_cons_of_neg (by simpa using hx)]
      omega

section Names

variable {α : Type} {names : α → List String} {name : String} {xs : List α}
  (h : (xs.flatMap names).count name ≤ 1)

include h

/-- A name that is there once is the name of one thing, or of none. -/
theorem filter_names : (xs.filter fun x => name ∈ names x) = [] ∨
    ∃ x, (xs.filter fun x => name ∈ names x) = [x] := by
  have hle := Nat.le_trans (length_filter_names_le names name xs) h
  match hfilter : xs.filter fun x => name ∈ names x with
  | [] => exact .inl rfl
  | [x] => exact .inr ⟨x, rfl⟩
  | _ :: _ :: _ =>
    rw [hfilter] at hle
    simp at hle

theorem eq_of_names {x y : α} (hx : x ∈ xs) (hy : y ∈ xs) (hname : name ∈ names x)
    (hname' : name ∈ names y) : x = y := by
  have hx' : x ∈ xs.filter fun x => name ∈ names x := List.mem_filter.mpr ⟨hx, by simpa using hname⟩
  have hy' : y ∈ xs.filter fun x => name ∈ names x := List.mem_filter.mpr ⟨hy, by simpa using hname'⟩
  rcases filter_names h with hnone | ⟨z, hone⟩
  · rw [hnone] at hx'
    cases hx'
  · rw [hone, List.mem_singleton] at hx' hy'
    rw [hx', hy']

end Names

theorem PathPattern.count_repeats (p : PathPattern) (name : String) :
    ((p.expr.repeats true).flatMap Repeated.names).count name ≤ p.declaredNames.count name := by
  have hnames : (p.expr.repeats true).flatMap Repeated.names =
      ((p.expr.repeats true).flatMap Repeated.places).filterMap Place.name? := List.filterMap_flatMap.symm
  rw [hnames, p.declaredNames_eq]
  exact (((p.expr.places_repeats false).filterMap _).trans (List.sublist_append_right _ _)).count_le _

theorem PathPattern.mem_places {p : PathPattern} {r : Repeated} (hr : r ∈ p.expr.repeats true) {l : Place}
    (hl : l ∈ r.places) : l ∈ p.places :=
  (p.expr.places_repeats false).subset (List.mem_flatMap.mpr ⟨r, hr, hl⟩)

theorem Repeated.mem_names {r : Repeated} {l : Place} (hl : l ∈ r.places) {name : String}
    (hname : l.name? = some name) : name ∈ r.names := List.mem_filterMap.mpr ⟨l, hl, hname⟩

/-- What a path pattern declares once a repeated factor declares once, if it does. -/
theorem PathPattern.count_names {p : PathPattern} {r : Repeated} (hr : r ∈ p.expr.repeats true)
    {name : String} (hname : name ∈ r.names) (hone : p.declaredNames.count name = 1) :
    r.names.count name = 1 := by
  have hpos : 0 < r.names.count name := List.count_pos_iff.mpr hname
  have hle : r.names.count name ≤ ((p.expr.repeats true).flatMap Repeated.names).count name :=
    (List.sublist_flatten_of_mem (List.mem_map_of_mem hr)).count_le _
  have := p.count_repeats name
  omega

/-! ## Tours -/

/-- A repeated factor that was gone through: how many edges the walk has before and after it, and its
repetitions. -/
structure Visit extends Repeated where
  start : Nat
  stop : Nat
  laps : List Lap

namespace Visit

/-- The edges of a path that a repeated factor went over. -/
def run (v : Visit) (p : Path) : List EdgeId := (p.edges.take v.stop).drop v.start

/-- The number of repetitions is within the bounds of the quantifier. -/
def IsWithin (v : Visit) : Prop :=
  v.quantifier.lower ≤ v.laps.length ∧ ∀ upper, v.quantifier.upper = some upper → v.laps.length ≤ upper

end Visit

/-- How far a match has come, and the repeated factors that it has gone through. -/
structure Tour where
  stage : Stage
  visits : List Visit

mutual

/-- The ways to match a choice between terms, as in `PathExpr.ways`, each with the repeated factors that
it goes through. -/
def PathExpr.tours : PathExpr → Surroundings → Stage → List Tour
  | .term factors, c, s => termTours factors c s
  | .union terms, c, s => if terms.isEmpty then [⟨s, []⟩] else choiceTours terms c s
  | .multiset terms, c, s => if terms.isEmpty then [⟨s, []⟩] else choiceTours terms c s

def choiceTours : List (List Factor) → Surroundings → Stage → List Tour
  | [], _, _ => []
  | t :: rest, c, s => termTours t c s ++ choiceTours rest c s

def termTours : List Factor → Surroundings → Stage → List Tour
  | [], _, s => [⟨s, []⟩]
  | f :: rest, c, s => (f.tours c s).flatMap fun t =>
    (termTours rest c t.stage).map fun u => ⟨u.stage, t.visits ++ u.visits⟩

def Factor.tours : Factor → Surroundings → Stage → List Tour
  | .mk e none, c, s => e.tours c s
  | .mk e (some q), c, s =>
    (lappedRepetitions (e.ways { c with repeated := true }) q.lower q.upper 0 s).map fun r =>
      ⟨r.1, [⟨⟨e, q⟩, s.walk.length, r.1.walk.length, r.2⟩]⟩

def Element.tours : Element → Surroundings → Stage → List Tour
  | .node f, c, s => ((Element.node f).ways c s).map fun u => ⟨u, []⟩
  | .edge pattern, c, s => ((Element.edge pattern).ways c s).map fun u => ⟨u, []⟩
  | .group name mode body condition, c, s =>
    (body.tours { c with frames := ⟨mode.getD .walk, s.walk.length⟩ :: c.frames } s).flatMap fun t =>
      match Thread.closeGroup? c.env t.stage.bindings (t.stage.walk.since s.walk.length).toPath name
          condition c.repeated with
      | some bindings => [{ t with stage := { t.stage with bindings := bindings } }]
      | none => []

end

/-- The tours of a path pattern with at most `limit` edges, from the start vertices in order. -/
def PathPattern.tours (p : PathPattern) (env : Env) (base : Bindings) (limit : Nat) : List Tour :=
  (startVertices env (.compile p) base).flatMap fun v =>
    p.expr.tours ⟨env, p.modeInForce, [], false⟩ (.start v base limit)

mutual

/-- **Tours are ways.** -/
theorem PathExpr.stages_tours : ∀ (x : PathExpr) (c : Surroundings) (s : Stage),
    (x.tours c s).map Tour.stage = x.ways c s
  | .term factors, c, s => by
    rw [PathExpr.tours, PathExpr.ways]
    exact term_stages_tours factors c s
  | .union terms, c, s => by
    rw [PathExpr.tours, PathExpr.ways, ← choice_stages_tours terms c s]
    split <;> rfl
  | .multiset terms, c, s => by
    rw [PathExpr.tours, PathExpr.ways, ← choice_stages_tours terms c s]
    split <;> rfl

theorem choice_stages_tours : ∀ (terms : List (List Factor)) (c : Surroundings) (s : Stage),
    (choiceTours terms c s).map Tour.stage = choiceWays terms c s
  | [], c, s => by rw [choiceTours, choiceWays, List.map_nil]
  | t :: rest, c, s => by
    rw [choiceTours, choiceWays, List.map_append, term_stages_tours t c s, choice_stages_tours rest c s]

theorem term_stages_tours : ∀ (factors : List Factor) (c : Surroundings) (s : Stage),
    (termTours factors c s).map Tour.stage = termWays factors c s
  | [], c, s => by rw [termTours, termWays, List.map_singleton]
  | f :: rest, c, s => by
    rw [termTours, termWays, ← f.stages_tours c s, List.map_flatMap, List.flatMap_map]
    refine List.flatMap_congr fun t _ => ?_
    rw [List.map_map, ← term_stages_tours rest c t.stage]
    rfl

theorem Factor.stages_tours : ∀ (f : Factor) (c : Surroundings) (s : Stage),
    (f.tours c s).map Tour.stage = f.ways c s
  | .mk e none, c, s => by
    rw [Factor.tours, Factor.ways]
    exact e.stages_tours c s
  | .mk e (some q), c, s => by
    rw [Factor.tours, Factor.ways, List.map_map, ← map_fst_lappedRepetitions]
    rfl

theorem Element.stages_tours : ∀ (e : Element) (c : Surroundings) (s : Stage),
    (e.tours c s).map Tour.stage = e.ways c s
  | .node f, c, s => by
    rw [Element.tours, List.map_map]
    exact List.map_id _
  | .edge pattern, c, s => by
    rw [Element.tours, List.map_map]
    exact List.map_id _
  | .group name mode body condition, c, s => by
    rw [Element.tours, Element.ways, ← body.stages_tours, List.map_flatMap, List.flatMap_map]
    refine List.flatMap_congr fun t _ => ?_
    cases Thread.closeGroup? c.env t.stage.bindings (t.stage.walk.since s.walk.length).toPath name
      condition c.repeated <;> rfl

end

theorem PathPattern.stages_tours (p : PathPattern) (env : Env) (base : Bindings) (limit : Nat) :
    (p.tours env base limit).map Tour.stage = p.ways env base limit := by
  rw [tours, ways, List.map_flatMap]
  exact List.flatMap_congr fun v _ => p.expr.stages_tours _ _

/-! ## What a tour goes through -/

/-- A tour goes through some repeated factors at least and through some at most, in this order, and
repeats each as its quantifier says. -/
structure Tour.Accounts (least most : List Repeated) (t : Tour) : Prop where
  least : least <+ t.visits.map Visit.toRepeated
  most : t.visits.map Visit.toRepeated <+ most
  within : ∀ v ∈ t.visits, v.IsWithin

namespace Tour.Accounts

variable {least most least' most' : List Repeated} {s : Stage}

theorem nil : Accounts [] [] ⟨s, []⟩ := ⟨.refl _, .refl _, nofun⟩

theorem mono {t : Tour} (h : t.Accounts least most) (hleast : least' <+ least) (hmost : most <+ most') :
    t.Accounts least' most' :=
  ⟨hleast.trans h.least, h.most.trans hmost, h.within⟩

theorem append {t u : Tour} (ht : t.Accounts least most) (hu : u.Accounts least' most') :
    Accounts (least ++ least') (most ++ most') ⟨u.stage, t.visits ++ u.visits⟩ where
  least := by
    rw [List.map_append]
    exact ht.least.append hu.least
  most := by
    rw [List.map_append]
    exact ht.most.append hu.most
  within v hv := (List.mem_append.mp hv).elim (ht.within v) (hu.within v)

theorem choice {terms : List (List Factor)} {c : Surroundings} {t : Tour}
    (hterms : t ∈ choiceTours terms c s → t.Accounts [] (choiceRepeats true terms))
    (ht : t ∈ if terms.isEmpty then [⟨s, []⟩] else choiceTours terms c s) :
    t.Accounts [] (choiceRepeats true terms) := by
  split at ht
  · obtain rfl := List.mem_singleton.mp ht
    exact nil.mono (.refl _) (List.nil_sublist _)
  · exact hterms ht

end Tour.Accounts

mutual

/-- **What a tour goes through**: every repeated factor outside of choices, and none twice. -/
theorem PathExpr.accounts_tours : ∀ (x : PathExpr) (c : Surroundings) (s : Stage),
    (∀ q ∈ x.quantifiers, q.IsOrdered) →
    ∀ t ∈ x.tours c s, t.Accounts (x.repeats false) (x.repeats true)
  | .term factors, c, s, hq, t, ht => by
    rw [PathExpr.quantifiers] at hq
    rw [PathExpr.tours] at ht
    rw [PathExpr.repeats, PathExpr.repeats]
    exact term_accounts_tours factors c s hq t ht
  | .union terms, c, s, hq, t, ht => by
    rw [PathExpr.quantifiers] at hq
    rw [PathExpr.tours] at ht
    rw [PathExpr.repeats, PathExpr.repeats]
    exact .choice (choice_accounts_tours terms c s hq t) ht
  | .multiset terms, c, s, hq, t, ht => by
    rw [PathExpr.quantifiers] at hq
    rw [PathExpr.tours] at ht
    rw [PathExpr.repeats, PathExpr.repeats]
    exact .choice (choice_accounts_tours terms c s hq t) ht

theorem choice_accounts_tours : ∀ (terms : List (List Factor)) (c : Surroundings) (s : Stage),
    (∀ q ∈ termsQuantifiers terms, q.IsOrdered) →
    ∀ t ∈ choiceTours terms c s, t.Accounts [] (choiceRepeats true terms)
  | [], c, s, _, t, ht => by
    rw [choiceTours] at ht
    cases ht
  | t :: rest, c, s, hq, u, hu => by
    rw [termsQuantifiers] at hq
    rw [choiceTours] at hu
    rw [choiceRepeats]
    rcases List.mem_append.mp hu with hu | hu
    · exact (term_accounts_tours t c s (fun q h => hq q (List.mem_append_left _ h)) u hu).mono
        (List.nil_sublist _) (List.sublist_append_left _ _)
    · exact (choice_accounts_tours rest c s (fun q h => hq q (List.mem_append_right _ h)) u hu).mono
        (.refl _) (List.sublist_append_right _ _)

theorem term_accounts_tours : ∀ (factors : List Factor) (c : Surroundings) (s : Stage),
    (∀ q ∈ termQuantifiers factors, q.IsOrdered) →
    ∀ t ∈ termTours factors c s, t.Accounts (termRepeats false factors) (termRepeats true factors)
  | [], c, s, _, t, ht => by
    rw [termTours] at ht
    obtain rfl := List.mem_singleton.mp ht
    rw [termRepeats, termRepeats]
    exact .nil
  | f :: rest, c, s, hq, t, ht => by
    rw [termQuantifiers] at hq
    rw [termTours] at ht
    obtain ⟨t₁, h₁, ht⟩ := List.mem_flatMap.mp ht
    obtain ⟨t₂, h₂, rfl⟩ := List.mem_map.mp ht
    rw [termRepeats, termRepeats]
    exact (f.accounts_tours c s (fun q h => hq q (List.mem_append_left _ h)) t₁ h₁).append
      (term_accounts_tours rest c t₁.stage (fun q h => hq q (List.mem_append_right _ h)) t₂ h₂)

theorem Factor.accounts_tours : ∀ (f : Factor) (c : Surroundings) (s : Stage),
    (∀ q ∈ f.quantifiers, q.IsOrdered) →
    ∀ t ∈ f.tours c s, t.Accounts (f.repeats false) (f.repeats true)
  | .mk e none, c, s, hq, t, ht => by
    rw [Factor.quantifiers] at hq
    rw [Factor.tours] at ht
    rw [Factor.repeats, Factor.repeats]
    exact e.accounts_tours c s hq t ht
  | .mk e (some q), c, s, hq, t, ht => by
    rw [Factor.tours] at ht
    obtain ⟨r, hr, rfl⟩ := List.mem_map.mp ht
    rw [Factor.repeats, Factor.repeats]
    refine ⟨.refl _, .refl _, fun v hv => ?_⟩
    obtain rfl := List.mem_singleton.mp hv
    have hordered : q.IsOrdered := hq q (by simp [Factor.quantifiers])
    obtain ⟨-, hlower, hupper⟩ := laps_of_mem hr
    rw [Nat.zero_add] at hlower hupper
    exact ⟨hlower, fun hi hhi => hupper hi hhi (hordered hi hhi) (Nat.zero_le hi)⟩

theorem Element.accounts_tours : ∀ (e : Element) (c : Surroundings) (s : Stage),
    (∀ q ∈ e.quantifiers, q.IsOrdered) →
    ∀ t ∈ e.tours c s, t.Accounts (e.repeats false) (e.repeats true)
  | .node f, c, s, _, t, ht => by
    rw [Element.tours] at ht
    obtain ⟨u, _, rfl⟩ := List.mem_map.mp ht
    rw [Element.repeats, Element.repeats]
    exact .nil
  | .edge pattern, c, s, _, t, ht => by
    rw [Element.tours] at ht
    obtain ⟨u, _, rfl⟩ := List.mem_map.mp ht
    rw [Element.repeats, Element.repeats]
    exact .nil
  | .group name mode body condition, c, s, hq, t, ht => by
    rw [Element.quantifiers] at hq
    rw [Element.tours] at ht
    obtain ⟨t, ht, hu⟩ := List.mem_flatMap.mp ht
    have hinside := body.accounts_tours _ s hq t ht
    rw [Element.repeats, Element.repeats]
    split at hu
    · obtain rfl := List.mem_singleton.mp hu
      exact ⟨hinside.least, hinside.most, hinside.within⟩
    · cases hu

end

end GraphPatterns
