/-
What comes of a choice, apart from the agenda it lies on: the threads that reach the end of their
program, in the order in which they do, and the places where an edge was wanted and there was no room
for one. `Choice.outcomes` goes through a choice to its end, so the outcomes of an agenda are those of
its choices one after the other.

`Choice.Invariant` says how a property of threads is carried to every arrival.
-/
import GraphPatterns.Matching.Search
import Mathlib.Data.List.Basic

namespace GraphPatterns

/-- Something that a choice leads to. -/
inductive Outcome where
  /-- A thread has come to the end of its program. -/
  | arrives (t : Thread)
  /-- A thread wanted an edge where there was no room for one. -/
  | blocked

namespace Outcome

/-- The thread that has arrived, if one has. -/
def thread? : Outcome → Option Thread
  | arrives t => some t
  | blocked => none

/-- The threads among some outcomes that have arrived. -/
def arrivals (os : List Outcome) : List Thread := os.filterMap thread?

@[simp] theorem arrivals_nil : arrivals [] = [] := rfl

@[simp] theorem arrivals_blocked (os : List Outcome) : arrivals (blocked :: os) = arrivals os := rfl

@[simp] theorem arrivals_arrives (t : Thread) (os : List Outcome) :
    arrivals (arrives t :: os) = t :: arrivals os := rfl

@[simp] theorem arrivals_append (os ps : List Outcome) :
    arrivals (os ++ ps) = arrivals os ++ arrivals ps := by simp [arrivals]

theorem arrivals_flatMap {α : Type} (l : List α) (f : α → List Outcome) :
    arrivals (l.flatMap f) = l.flatMap fun a => arrivals (f a) := by
  simp [arrivals, List.filterMap_flatMap]

theorem mem_arrivals {t : Thread} {os : List Outcome} : t ∈ arrivals os ↔ arrives t ∈ os := by
  simp only [arrivals, List.mem_filterMap]
  constructor
  · rintro ⟨o, ho, ht⟩
    cases o with
    | arrives u => cases ht; exact ho
    | blocked => cases ht
  · exact fun h => ⟨_, h, rfl⟩

end Outcome

namespace Choice

instance : WellFoundedRelation Choice := ⟨Smaller, smaller_wf⟩

theorem smaller_of_execute {env : Env} {t u : Thread} {slack : Nat} {i : Inst} {ts : List Thread}
    (hs : t.slack = slack + 1) (h : { t with slack := slack }.execute env i = .threads ts)
    (hu : u ∈ ts) : Smaller (.resume u) (.resume t) := by
  obtain ⟨hroom, hslack, -⟩ := Thread.execute_bounded h hu
  simp only at hroom hslack
  simp only [Smaller, rank, hroom, hslack, hs]
  exact .right _ (.left _ _ (by omega))

theorem smaller_of_wantsEdge {env : Env} {t u : Thread} {slack room : Nat} {i : Inst}
    {pattern : EdgePattern} {grouped : Bool} {candidates : List (EdgeId × VertexId)}
    (hs : t.slack = slack + 1)
    (h : { t with slack := slack }.execute env i = .wantsEdge u pattern grouped room) :
    Smaller (.extend u pattern grouped room candidates) (.resume t) := by
  obtain ⟨-, hroom, -⟩ := Thread.execute_wantsEdge h
  simp only at hroom
  simp only [Smaller, rank, hroom]
  exact .right _ (.left _ _ (by omega))

theorem smaller_of_cross {t : Thread} {pattern : EdgePattern} {grouped : Bool} {room idle : Nat}
    {edge : EdgeId × VertexId} {candidates : List (EdgeId × VertexId)} :
    Smaller (.resume (t.cross pattern grouped edge.1 edge.2 room idle))
      (.extend t pattern grouped room (edge :: candidates)) := by
  simp only [Smaller, rank, Thread.room_cross]
  exact .left _ _ (by omega)

theorem smaller_of_skip {t : Thread} {pattern : EdgePattern} {grouped : Bool} {room : Nat}
    {edge : EdgeId × VertexId} {candidates : List (EdgeId × VertexId)} :
    Smaller (.extend t pattern grouped room candidates)
      (.extend t pattern grouped room (edge :: candidates)) :=
  .right _ (.right _ (by simp))

/-- Whether a thread that waits for an edge may take the given one. -/
def mayCross (env : Env) (p : Program) (t : Thread) (pattern : EdgePattern) (grouped : Bool)
    (edge : EdgeId × VertexId) : Bool :=
  t.admitsStep p.mode edge.1 edge.2 &&
    pattern.filler.admits env t.bindings grouped (t.takenBy? pattern.filler.name) (.edge edge.1)

/-- All outcomes of a choice, in the order of the search. -/
def outcomes (env : Env) (p : Program) : Choice → List Outcome
  | .resume t =>
    match hs : t.slack, p.code[t.pc]? with
    | slack + 1, some i =>
      match h : { t with slack := slack }.execute env i with
      | .threads ts => ts.attach.flatMap fun (u : { u // u ∈ ts }) =>
        have : Smaller (.resume u.1) (.resume t) := smaller_of_execute hs h u.2
        outcomes env p (.resume u.1)
      | .pruned => []
      | .blocked => [.blocked]
      | .wantsEdge u pattern grouped room =>
        let candidates := env.store.neighbors u.walk.current pattern.direction
        have : Smaller (.extend u pattern grouped room candidates) (.resume t) :=
          smaller_of_wantsEdge hs h
        outcomes env p (.extend u pattern grouped room candidates)
      | .accepted u => [.arrives u]
    | _, _ => []
  | .extend _ _ _ _ [] => []
  | .extend t pattern grouped room (edge :: candidates) =>
    (if mayCross env p t pattern grouped edge then
        outcomes env p (.resume (t.cross pattern grouped edge.1 edge.2 room p.idle))
      else []) ++ outcomes env p (.extend t pattern grouped room candidates)
termination_by c => c
decreasing_by
  · assumption
  · assumption
  · exact smaller_of_cross
  · exact smaller_of_skip

end Choice

/-- The outcomes of an effect. -/
def Effect.outcomes (env : Env) (p : Program) : Effect → List Outcome
  | .threads ts => ts.flatMap fun u => (Choice.resume u).outcomes env p
  | .pruned => []
  | .blocked => [.blocked]
  | .wantsEdge t pattern grouped room =>
    (Choice.extend t pattern grouped room
      (env.store.neighbors t.walk.current pattern.direction)).outcomes env p
  | .accepted t => [.arrives t]

namespace Choice

theorem outcomes_resume {env : Env} {p : Program} {t : Thread} {slack : Nat} {i : Inst}
    (hs : t.slack = slack + 1) (hi : p.code[t.pc]? = some i) :
    (Choice.resume t).outcomes env p =
      ({ t with slack := slack }.execute env i).outcomes env p := by
  rw [outcomes]
  split
  · next slack' j hs' hi' =>
    obtain rfl : slack' = slack := by omega
    obtain rfl : j = i := by rw [hi] at hi'; exact (Option.some.inj hi').symm
    split <;> next h => simp [h, Effect.outcomes]
  · next h => exact absurd hi (h _ _ hs)

theorem outcomes_stuck {env : Env} {p : Program} {t : Thread}
    (h : ∀ slack i, t.slack = slack + 1 → p.code[t.pc]? ≠ some i) :
    (Choice.resume t).outcomes env p = [] := by
  rw [outcomes]
  split
  · next hs hi => exact absurd hi (h _ _ hs)
  · rfl

@[simp] theorem outcomes_extend_nil {env : Env} {p : Program} {t : Thread} {pattern : EdgePattern}
    {grouped : Bool} {room : Nat} :
    (Choice.extend t pattern grouped room []).outcomes env p = [] := by
  rw [outcomes]

theorem outcomes_extend_cons {env : Env} {p : Program} {t : Thread} {pattern : EdgePattern}
    {grouped : Bool} {room : Nat} {edge : EdgeId × VertexId} {candidates : List (EdgeId × VertexId)} :
    (Choice.extend t pattern grouped room (edge :: candidates)).outcomes env p =
      (if mayCross env p t pattern grouped edge then
          (Choice.resume (t.cross pattern grouped edge.1 edge.2 room p.idle)).outcomes env p
        else []) ++ (Choice.extend t pattern grouped room candidates).outcomes env p := by
  conv => lhs; rw [outcomes]

theorem outcomes_extend {env : Env} {p : Program} {t : Thread} {pattern : EdgePattern}
    {grouped : Bool} {room : Nat} (candidates : List (EdgeId × VertexId)) :
    (Choice.extend t pattern grouped room candidates).outcomes env p =
      candidates.flatMap fun edge =>
        if mayCross env p t pattern grouped edge then
          (Choice.resume (t.cross pattern grouped edge.1 edge.2 room p.idle)).outcomes env p
        else [] := by
  induction candidates with
  | nil => simp
  | cons edge candidates ih => rw [outcomes_extend_cons, ih]; rfl

/-- The outcomes depend on no more of the surroundings and the program than what instructions do and
which edges may be crossed. -/
theorem outcomes_congr {env env' : Env} {p p' : Program} (hcode : p'.code = p.code)
    (hidle : p'.idle = p.idle) (hneighbors : env'.store.neighbors = env.store.neighbors)
    (hexecute : ∀ (t : Thread) (i : Inst), t.execute env' i = t.execute env i)
    (hcross : ∀ (t : Thread) (pattern : EdgePattern) (grouped : Bool) (edge : EdgeId × VertexId),
      mayCross env' p' t pattern grouped edge = mayCross env p t pattern grouped edge)
    (c : Choice) : c.outcomes env' p' = c.outcomes env p := by
  have hrun {t : Thread} {slack : Nat} {i : Inst} (hs : t.slack = slack + 1)
      (hi : p.code[t.pc]? = some i) : (resume t).outcomes env' p' =
        ({ t with slack := slack }.execute env i).outcomes env' p' := by
    rw [outcomes_resume hs (hcode ▸ hi), hexecute]
  induction c using Choice.outcomes.induct env p with
  | case1 t slack i hs hi ts he ih =>
    rw [hrun hs hi, outcomes_resume hs hi, he]
    exact List.flatMap_congr fun u hu => ih ⟨u, hu⟩
  | case2 t slack i hs hi he =>
    rw [hrun hs hi, outcomes_resume hs hi, he]
    rfl
  | case3 t slack i hs hi he =>
    rw [hrun hs hi, outcomes_resume hs hi, he]
    rfl
  | case4 t slack i hs hi u pattern grouped room he _ _ ih =>
    rw [hrun hs hi, outcomes_resume hs hi, he]
    simp only [Effect.outcomes, hneighbors]
    exact ih
  | case5 t slack i hs hi u he =>
    rw [hrun hs hi, outcomes_resume hs hi, he]
    rfl
  | case6 t hstuck =>
    rw [outcomes_stuck fun slack i hs hi => hstuck slack i hs hi,
      outcomes_stuck fun slack i hs hi => hstuck slack i hs (hcode ▸ hi)]
  | case7 t pattern grouped room => simp
  | case8 t pattern grouped room edge candidates ih₁ ih₂ =>
    rw [outcomes_extend_cons, outcomes_extend_cons, hcross, hidle, ih₁, ih₂]

/-! ## What all arrivals have in common -/

/-- A property that a thread hands on to the threads that come of it. -/
structure Invariant (env : Env) (p : Program) (I : Thread → Prop) : Prop where
  slack : ∀ {t : Thread} (n : Nat), I t → I { t with slack := n }
  execute : ∀ {t u : Thread} {i : Inst} {ts : List Thread}, I t → p.code[t.pc]? = some i →
    t.execute env i = .threads ts → u ∈ ts → I u
  cross : ∀ {t : Thread} {pattern : EdgePattern} {grouped : Bool} {room : Nat}
    {edge : EdgeId × VertexId}, I t → p.code[t.pc]? = some (.edge pattern grouped) →
    t.room = room + 1 → edge ∈ env.store.neighbors t.walk.current pattern.direction →
    mayCross env p t pattern grouped edge →
    I (t.cross pattern grouped edge.1 edge.2 room p.idle)

/-- A property of the thread in a choice. What waits for an edge has got there by an instruction. -/
def Carries (env : Env) (p : Program) (I : Thread → Prop) : Choice → Prop
  | .resume t => I t
  | .extend t pattern grouped room candidates =>
    I t ∧ p.code[t.pc]? = some (.edge pattern grouped) ∧ t.room = room + 1 ∧
      candidates ⊆ env.store.neighbors t.walk.current pattern.direction

theorem Invariant.arrives {env : Env} {p : Program} {I : Thread → Prop} (hI : Invariant env p I)
    {c : Choice} (hc : c.Carries env p I) {u : Thread} (hu : .arrives u ∈ c.outcomes env p) :
    I u := by
  induction c using Choice.outcomes.induct env p with
  | case1 t slack i hs hi ts h ih =>
    rw [outcomes_resume hs hi, h] at hu
    obtain ⟨v, hv, hu⟩ := List.mem_flatMap.mp hu
    exact ih ⟨v, hv⟩ (hI.execute (hI.slack slack hc) hi h hv) hu
  | case2 t slack i hs hi h => rw [outcomes_resume hs hi, h] at hu; cases hu
  | case3 t slack i hs hi h =>
    rw [outcomes_resume hs hi, h] at hu
    simp [Effect.outcomes] at hu
  | case4 t slack i hs hi v pattern grouped room h _ _ ih =>
    rw [outcomes_resume hs hi, h] at hu
    obtain ⟨rfl, hroom, rfl⟩ := Thread.execute_wantsEdge h
    exact ih ⟨hI.slack slack hc, hi, hroom, fun _ h => h⟩ hu
  | case5 t slack i hs hi v h =>
    rw [outcomes_resume hs hi, h] at hu
    obtain ⟨rfl, -⟩ := Thread.execute_accepted h
    simp only [Effect.outcomes, List.mem_singleton, Outcome.arrives.injEq] at hu
    exact hu ▸ hI.slack slack hc
  | case6 t hstuck =>
    rw [outcomes_stuck fun slack i hs hi => hstuck slack i hs hi] at hu
    cases hu
  | case7 t pattern grouped room => simp at hu
  | case8 t pattern grouped room edge candidates ih₁ ih₂ =>
    obtain ⟨ht, hi, hroom, hsub⟩ := hc
    rw [outcomes_extend_cons, List.mem_append] at hu
    rcases hu with hu | hu
    · split at hu
      · next hmay => exact ih₁ (hI.cross ht hi hroom (hsub (by simp)) hmay) hu
      · cases hu
    · exact ih₂ ⟨ht, hi, hroom, fun e he => hsub (by simp [he])⟩ hu

/-- Each edge takes one away from the room, so the length of the walk and the room add up to the
limit of the round. -/
theorem invariant_limit (env : Env) (p : Program) (limit : Nat) :
    Invariant env p fun t => t.walk.length + t.room = limit where
  slack _ h := h
  execute h _ he hu := by
    obtain ⟨hroom, -, hwalk⟩ := Thread.execute_bounded he hu
    rw [hwalk, hroom]; exact h
  cross {t _ _ room _} h _ hroom _ _ := by
    have : t.walk.length + (room + 1) = limit := hroom ▸ h
    simp only [Thread.walk_cross, Walk.length_extend, Thread.room_cross]
    omega

/-- A walk goes on from where it started. -/
theorem invariant_start (env : Env) (p : Program) (v : VertexId) :
    Invariant env p fun t => t.walk.start = v where
  slack _ h := h
  execute h _ he hu := by
    obtain ⟨-, -, hwalk⟩ := Thread.execute_bounded he hu
    rw [hwalk]; exact h
  cross h _ _ _ _ := by rw [Thread.walk_cross]; exact h

theorem invariant_room (env : Env) (p : Program) (most : Nat) :
    Invariant env p fun t => t.room ≤ most where
  slack _ h := h
  execute h _ he hu := by
    obtain ⟨hroom, -, -⟩ := Thread.execute_bounded he hu
    rw [hroom]; exact h
  cross {t _ _ room _} h _ hroom _ _ := by
    have : room + 1 ≤ most := hroom ▸ h
    rw [Thread.room_cross]
    omega

/-- The room that is left in a choice. -/
def room : Choice → Nat
  | .resume t => t.room
  | .extend _ _ _ room _ => room

theorem room_le_of_arrives {env : Env} {p : Program} {c : Choice} {u : Thread}
    (hu : .arrives u ∈ c.outcomes env p) : u.room ≤ c.room := by
  cases c with
  | resume t => exact (invariant_room env p t.room).arrives (c := .resume t) (Nat.le_refl _) hu
  | extend t pattern grouped room candidates =>
    rw [outcomes_extend] at hu
    obtain ⟨edge, -, hu⟩ := List.mem_flatMap.mp hu
    split at hu
    · exact (invariant_room env p room).arrives
        (c := .resume (t.cross pattern grouped edge.1 edge.2 room p.idle))
        (Nat.le_of_eq (Thread.room_cross ..)) hu
    · cases hu

end Choice

end GraphPatterns
