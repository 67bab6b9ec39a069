/-
What happens on the ways of a pattern. A passage is a way of a pattern (`PathExpr.stages_passages`) with
its events: variables under quantifiers take elements, one in each repetition at most, and groups with
variables are gone through. Not all of this can be told from what is bound in the end: a group may go on
with what was bound before the pattern, and the path of a group may have been bound elsewhere.
-/
import GraphPatterns.Proofs.Ways
import Mathlib.Data.List.Basic

namespace GraphPatterns

/-- What happens on a way of a pattern. -/
inductive Passage.Event where
  /-- A variable under a quantifier takes an element. -/
  | took (name : String) (x : ElementId)
  /-- A group with a variable has been gone through, on a part of the walk. -/
  | walked (name : String) (sub : Path)

/-- A way of a pattern: how far it has come, and what has happened on it, in order. -/
structure Passage where
  stage : Stage
  events : List Passage.Event

/-- The passage, with other events before its own. -/
def Passage.after (events : List Event) (t : Passage) : Passage := ⟨t.stage, events ++ t.events⟩

/-- The elements that a variable takes. -/
def Passage.elements (name : String) (events : List Event) : List ElementId :=
  events.filterMap fun
    | .took own x => if own = name then some x else none
    | .walked _ _ => none

/-- A group with a variable has been gone through. -/
def Passage.leaving (name : Option String) (sub : Path) : List Event := (name.map (.walked · sub)).toList

/-- Under a quantifier a variable takes an element, unless it has taken one in this repetition. -/
def Stage.taking (s : Stage) (name : Option String) (repeated : Bool) (x : ElementId) :
    List Passage.Event :=
  match name with
  | none => []
  | some name => if repeated && (s.takenBy? (some name)).isNone then [.took name x] else []

/-- The ways to repeat something, as in `repetitions`, with what happens on them. -/
def repeatedPassages (body : Stage → List Passage) (lower : Nat) (upper : Option Nat) (n : Nat)
    (s : Stage) : List Passage :=
  if h : n < lower then
    (body s).flatMap fun t =>
      (repeatedPassages body lower upper (n + 1) { t.stage with taken := s.taken }).map (.after t.events)
  else if upper = some n then [⟨s, []⟩]
  else
    ⟨s, []⟩ :: (body s).flatMap fun t =>
      if t.stage.room < s.room then
        (repeatedPassages body lower upper (n + 1) { t.stage with taken := s.taken }).map (.after t.events)
      else []
termination_by (lower - n, s.room)
decreasing_by
  · exact .left _ _ (by omega)
  · have : lower - (n + 1) = lower - n := by omega
    rw [this]
    exact .right _ (by assumption)

mutual

/-- The ways to match a choice between terms, as in `PathExpr.ways`, with what happens on them. -/
def PathExpr.passages : PathExpr → Surroundings → Stage → List Passage
  | .term factors, c, s => termPassages factors c s
  | .union terms, c, s => if terms.isEmpty then [⟨s, []⟩] else choicePassages terms c s
  | .multiset terms, c, s => if terms.isEmpty then [⟨s, []⟩] else choicePassages terms c s

def choicePassages : List (List Factor) → Surroundings → Stage → List Passage
  | [], _, _ => []
  | t :: rest, c, s => termPassages t c s ++ choicePassages rest c s

def termPassages : List Factor → Surroundings → Stage → List Passage
  | [], _, s => [⟨s, []⟩]
  | f :: rest, c, s => (f.passages c s).flatMap fun t =>
    (termPassages rest c t.stage).map (.after t.events)

def Factor.passages : Factor → Surroundings → Stage → List Passage
  | .mk e none, c, s => e.passages c s
  | .mk e (some q), c, s =>
    repeatedPassages (e.passages { c with repeated := true }) q.lower q.upper 0 s

def Element.passages : Element → Surroundings → Stage → List Passage
  | .node f, c, s =>
    let x := ElementId.vertex s.walk.current
    if c.admits s f x then [⟨s.bind f.name c.repeated x, s.taking f.name c.repeated x⟩] else []
  | .edge pattern, c, s =>
    match s.room with
    | 0 => []
    | room + 1 =>
      (c.env.store.neighbors s.walk.current pattern.direction).flatMap fun edge =>
        if c.admitsStep s.walk edge.1 edge.2 && c.admits s pattern.filler (.edge edge.1) then
          [⟨s.cross pattern c.repeated edge.1 edge.2 room,
            s.taking pattern.filler.name c.repeated (.edge edge.1)⟩]
        else []
  | .group name mode body condition, c, s =>
    let start := s.walk.length
    let inside := { c with frames := ⟨mode.getD .walk, start⟩ :: c.frames }
    (body.passages inside s).flatMap fun t =>
      match Thread.closeGroup? c.env t.stage.bindings (t.stage.walk.since start).toPath name condition
          c.repeated with
      | some bindings =>
        [⟨{ t.stage with bindings := bindings },
          t.events ++ Passage.leaving name (t.stage.walk.since start).toPath⟩]
      | none => []

end

/-- The passages of a path pattern with at most `limit` edges, from the start vertices in order. -/
def PathPattern.passages (p : PathPattern) (env : Env) (base : Bindings) (limit : Nat) : List Passage :=
  (startVertices env (.compile p) base).flatMap fun v =>
    p.expr.passages ⟨env, p.modeInForce, [], false⟩ (.start v base limit)

/-! ## Events -/

namespace Passage

@[simp] theorem elements_nil (name : String) : elements name [] = [] := rfl

@[simp] theorem elements_append (name : String) (before later : List Event) :
    elements name (before ++ later) = elements name before ++ elements name later :=
  List.filterMap_append

@[simp] theorem elements_leaving (name : String) (own : Option String) (sub : Path) :
    elements name (leaving own sub) = [] := by
  cases own <;> rfl

theorem mem_leaving {name : String} {own : Option String} {sub q : Path}
    (h : .walked name sub ∈ leaving own q) : own = some name ∧ sub = q := by
  obtain ⟨other, hown, hother⟩ := Option.map_eq_some_iff.mp (Option.mem_toList.mp h)
  cases hother
  exact ⟨hown, rfl⟩

end Passage

/-- The elements that a variable takes when an element is bound: that one, or none. -/
theorem Stage.elements_taking (s : Stage) (name : String) (own : Option String) (repeated : Bool)
    (x : ElementId) : Passage.elements name (s.taking own repeated x) = [] ∨
      own = some name ∧ Passage.elements name (s.taking own repeated x) = [x] := by
  cases own with
  | none => exact .inl rfl
  | some own =>
    unfold taking
    dsimp only
    split
    · by_cases hname : own = name <;> simp [Passage.elements, hname]
    · exact .inl rfl

/-- No group is gone through where an element is bound. -/
theorem Stage.walked_not_mem_taking (s : Stage) (own : Option String) (repeated : Bool) (x : ElementId)
    (name : String) (sub : Path) : .walked name sub ∉ s.taking own repeated x := by
  unfold taking
  split
  · exact List.not_mem_nil
  · split <;> simp

/-! ## Passages are ways -/

theorem map_stage_after (events : List Passage.Event) (ts : List Passage) :
    (ts.map (Passage.after events)).map Passage.stage = ts.map Passage.stage := by
  rw [List.map_map]
  rfl

theorem stages_repeatedPassages {body : Stage → List Passage} {lower : Nat} {upper : Option Nat}
    (n : Nat) (s : Stage) : (repeatedPassages body lower upper n s).map Passage.stage =
      repetitions (fun s => (body s).map Passage.stage) lower upper n s := by
  induction n, s using repetitions.induct lower upper with
  | case1 n s hn ih =>
    rw [repeatedPassages, repetitions, dif_pos hn, dif_pos hn, List.map_flatMap, List.flatMap_map]
    refine List.flatMap_congr fun t _ => ?_
    rw [map_stage_after, ih t.stage]
  | case2 n s hn hupper =>
    rw [repeatedPassages, repetitions, dif_neg hn, dif_neg hn, if_pos hupper, if_pos hupper]
    rfl
  | case3 n s hn hupper ih =>
    rw [repeatedPassages, repetitions, dif_neg hn, dif_neg hn, if_neg hupper, if_neg hupper,
      List.map_cons, List.map_flatMap, List.flatMap_map]
    refine congrArg (s :: ·) (List.flatMap_congr fun t _ => ?_)
    split
    · next hroom => rw [map_stage_after, ih t.stage hroom]
    · rfl

mutual

/-- **Passages are ways.** -/
theorem PathExpr.stages_passages : ∀ (x : PathExpr) (c : Surroundings) (s : Stage),
    (x.passages c s).map Passage.stage = x.ways c s
  | .term factors, c, s => by
    rw [PathExpr.passages, PathExpr.ways]
    exact term_stages_passages factors c s
  | .union terms, c, s => by
    rw [PathExpr.passages, PathExpr.ways, ← choice_stages_passages terms c s]
    split <;> rfl
  | .multiset terms, c, s => by
    rw [PathExpr.passages, PathExpr.ways, ← choice_stages_passages terms c s]
    split <;> rfl

theorem choice_stages_passages : ∀ (terms : List (List Factor)) (c : Surroundings) (s : Stage),
    (choicePassages terms c s).map Passage.stage = choiceWays terms c s
  | [], c, s => by rw [choicePassages, choiceWays, List.map_nil]
  | t :: rest, c, s => by
    rw [choicePassages, choiceWays, List.map_append, term_stages_passages t c s,
      choice_stages_passages rest c s]

theorem term_stages_passages : ∀ (factors : List Factor) (c : Surroundings) (s : Stage),
    (termPassages factors c s).map Passage.stage = termWays factors c s
  | [], c, s => by rw [termPassages, termWays, List.map_singleton]
  | f :: rest, c, s => by
    rw [termPassages, termWays, ← f.stages_passages c s, List.map_flatMap, List.flatMap_map]
    refine List.flatMap_congr fun t _ => ?_
    rw [map_stage_after, term_stages_passages rest c t.stage]

theorem Factor.stages_passages : ∀ (f : Factor) (c : Surroundings) (s : Stage),
    (f.passages c s).map Passage.stage = f.ways c s
  | .mk e none, c, s => by
    rw [Factor.passages, Factor.ways]
    exact e.stages_passages c s
  | .mk e (some q), c, s => by
    rw [Factor.passages, Factor.ways, stages_repeatedPassages]
    exact congrArg (repetitions · q.lower q.upper 0 s)
      (funext fun s => e.stages_passages { c with repeated := true } s)

theorem Element.stages_passages : ∀ (e : Element) (c : Surroundings) (s : Stage),
    (e.passages c s).map Passage.stage = e.ways c s
  | .node f, c, s => by
    rw [Element.passages, Element.ways]
    split <;> rfl
  | .edge pattern, c, s => by
    rw [Element.passages, Element.ways]
    cases s.room with
    | zero => rfl
    | succ room =>
      rw [List.map_flatMap]
      refine List.flatMap_congr fun edge _ => ?_
      split <;> rfl
  | .group name mode body condition, c, s => by
    rw [Element.passages, Element.ways, ← body.stages_passages, List.map_flatMap, List.flatMap_map]
    refine List.flatMap_congr fun t _ => ?_
    cases Thread.closeGroup? c.env t.stage.bindings (t.stage.walk.since s.walk.length).toPath name
      condition c.repeated <;> rfl

end

theorem PathPattern.stages_passages (p : PathPattern) (env : Env) (base : Bindings) (limit : Nat) :
    (p.passages env base limit).map Passage.stage = p.ways env base limit := by
  rw [passages, ways, List.map_flatMap]
  exact List.flatMap_congr fun v _ => p.expr.stages_passages _ _

end GraphPatterns
