/-
Threads of a search: how far a match has come, in the program and in the graph. `Thread.execute` runs
one instruction. A thread has room for so many more edges, and until its next edge it may execute so
many more instructions; an instruction takes one of these away and adds nothing to either
(`Thread.execute_bounded`).
-/
import GraphPatterns.Config
import GraphPatterns.Matching.Eval
import GraphPatterns.Matching.Program

namespace GraphPatterns

/-- What a search reads and does not change. -/
structure Env where
  store : Store
  config : MatchConfig
  /-- What was bound before the match. -/
  seed : Bindings

/-! ## Elements -/

/-- Whether a vertex or an edge carries labels that satisfy a label expression. -/
def LabelExpr.admits (e : LabelExpr) (store : Store) (x : ElementId) : Bool :=
  (store.labels? x).any e.accepts

/-- Whether an element has the properties that are asked for. Null is never equal. -/
def admitsProperties (asked : List (String × Value)) (store : Store) (x : ElementId) : Bool :=
  asked.isEmpty ||
    (store.properties? x).any fun there =>
      asked.all fun (key, value) => !value.isNull && (there.get? key).any (·.looseEq value)

/-- Whether an element is the one that the variable already stands for. A grouped variable takes one
element in each repetition, `taken` being the one of this repetition. -/
def Filler.agrees (f : Filler) (env : Env) (bindings : Bindings) (grouped : Bool)
    (taken : Option ElementId) (x : ElementId) : Bool :=
  if grouped then taken.all (· == x)
  else
    match f.name.bind fun name => (bindings.get? name).or (env.seed.get? name) with
    | some b => b == .ofElement x
    | none => true

/-- Whether an element meets all that is asked of it. -/
def Filler.admits (f : Filler) (env : Env) (bindings : Bindings) (grouped : Bool)
    (taken : Option ElementId) (x : ElementId) : Bool :=
  f.agrees env bindings grouped taken x &&
    f.label.all (·.admits env.store x) &&
    admitsProperties f.properties env.store x &&
    f.condition.all fun e =>
      e.holds env.store ⟨bindings, env.seed, f.name.map (·, x), grouped⟩

/-! ## Threads -/

/-- A loop that is being repeated. -/
structure Loop where
  count : Nat
  /-- The length of the walk when the current repetition started. -/
  start : Nat

/-- A pattern between parentheses that is being matched. -/
structure Frame where
  mode : PathMode
  /-- The length of the walk when it started. -/
  start : Nat

/-- The element that a grouped variable took in a repetition that still goes on. -/
structure Taken where
  name : String
  element : ElementId
  /-- The number of loops around it. -/
  depth : Nat

/-- A match on its way. -/
structure Thread where
  /-- The place of the next instruction. -/
  pc : Nat
  walk : Walk
  bindings : Bindings
  /-- The loops around the place, the innermost first. -/
  loops : List Loop
  /-- The groups around the place, the innermost first. -/
  frames : List Frame
  taken : List Taken
  /-- How many more edges the walk may have. -/
  room : Nat
  /-- How many more instructions may come before the next edge. -/
  slack : Nat

namespace Thread

/-- A thread at the beginning of a program. -/
def start (v : VertexId) (bindings : Bindings) (room slack : Nat) : Thread where
  pc := 0
  walk := ⟨v, []⟩
  bindings := bindings
  loops := []
  frames := []
  taken := []
  room := room
  slack := slack

/-- The thread, so many instructions further. -/
def advance (t : Thread) (n : Nat) : Thread := { t with pc := t.pc + n }

/-- The element that a variable took in a repetition that still goes on. -/
def takenBy? (t : Thread) (name : Option String) : Option ElementId :=
  name.bind fun name => (t.taken.find? (·.name == name)).map (·.element)

/-- Adds an element to the group of a variable. -/
def collect (bindings : Bindings) (name : String) (x : ElementId) : Bindings :=
  match bindings.get? name with
  | none => bindings.insert name (.group [x])
  | some (.group items) => bindings.insert name (.group (items ++ [x]))
  | some _ => bindings

/-- Binds a variable to an element. A variable that is bound stays as it is, and a grouped one that has
taken an element in this repetition takes no other. -/
def bind (t : Thread) (name : Option String) (grouped : Bool) (x : ElementId) : Thread :=
  match name with
  | none => t
  | some name =>
    if !grouped then { t with bindings := t.bindings.insertNew name (.ofElement x) }
    else if (t.takenBy? (some name)).isSome then t
    else
      { t with
        taken := t.taken ++ [⟨name, x, t.loops.length⟩]
        bindings := collect t.bindings name x }

/-- Whether the walk may go on over an edge, by the mode of the pattern and those of all groups. -/
def admitsStep (t : Thread) (mode : PathMode) (e : EdgeId) (v : VertexId) : Bool :=
  mode.admits t.walk.toPath e v &&
    t.frames.all fun f => f.mode.admits (t.walk.since f.start).toPath e v

/-- The thread after an edge. -/
def cross (t : Thread) (pattern : EdgePattern) (grouped : Bool) (e : EdgeId) (v : VertexId)
    (room slack : Nat) : Thread :=
  bind { t with
    pc := t.pc + 1
    walk := t.walk.extend e v
    room := room
    slack := slack } pattern.filler.name grouped (.edge e)

end Thread

/-! ## Instructions -/

/-- What an instruction leads to. -/
inductive Effect where
  /-- The threads to go on with, the first one first. -/
  | threads (ts : List Thread)
  /-- A condition fails. -/
  | pruned
  /-- An edge is wanted where there is no room for one. -/
  | blocked
  /-- The thread waits for an edge, with so much room after it. -/
  | wantsEdge (t : Thread) (pattern : EdgePattern) (grouped : Bool) (room : Nat)
  /-- The program has come to its end. -/
  | accepted (t : Thread)

namespace Thread

def executeNode (env : Env) (t : Thread) (f : NodePattern) (grouped : Bool) : Effect :=
  let x := ElementId.vertex t.walk.current
  if f.admits env t.bindings grouped (t.takenBy? f.name) x then .threads [(t.bind f.name grouped x).advance 1]
  else .pruned

/-- The head of a loop. Fewer repetitions are tried first. -/
def executeLoop (t : Thread) (lower : Nat) (upper : Option Nat) (ahead : Nat) : Effect :=
  match t.loops with
  | [] => .threads []
  | l :: outer =>
    let t := { t with loops := { l with start := t.walk.length } :: outer }
    if l.count < lower then .threads [t.advance 1]
    else if upper = some l.count then .threads [t.advance ahead]
    else .threads [t.advance ahead, t.advance 1]

/-- The end of a repetition. Once there are enough of them, one that added no edge leads nowhere. -/
def executeAgain (t : Thread) (lower back : Nat) : Effect :=
  match t.loops with
  | [] => .threads []
  | l :: outer =>
    let t := { t with
      pc := t.pc - back
      loops := { l with count := l.count + 1 } :: outer
      taken := t.taken.filter (·.depth < t.loops.length) }
    if lower < l.count + 1 ∧ t.walk.length = l.start then .pruned else .threads [t]

/-- What is bound after a pattern between parentheses: its variable stands for the part of the path
that it has matched. It does not match if the variable stands for another path already, or if its
condition fails. -/
def closeGroup? (env : Env) (bindings : Bindings) (sub : Path) (name : Option String)
    (condition : Option Expr) (grouped : Bool) : Option Bindings :=
  let bound? :=
    match name with
    | some name => bindings.bindPath? env.seed name sub
    | none => some bindings
  bound?.filter fun bindings =>
    condition.all fun e => e.holds env.store ⟨bindings, env.seed, none, grouped⟩

def executeCloseGroup (env : Env) (t : Thread) (name : Option String) (condition : Option Expr)
    (grouped : Bool) : Effect :=
  match t.frames with
  | [] => .threads []
  | f :: outer =>
    match closeGroup? env t.bindings (t.walk.since f.start).toPath name condition grouped with
    | none => .pruned
    | some bindings => .threads [{ t with bindings := bindings, frames := outer }.advance 1]

/-- Runs one instruction. -/
def execute (env : Env) (t : Thread) : Inst → Effect
  | .node pattern grouped => t.executeNode env pattern grouped
  | .edge pattern grouped =>
    match t.room with
    | 0 => .blocked
    | room + 1 => .wantsEdge t pattern grouped room
  | .split ahead => .threads [t.advance 1, t.advance ahead]
  | .jump ahead => .threads [t.advance ahead]
  | .openLoop => .threads [{ t with loops := ⟨0, t.walk.length⟩ :: t.loops }.advance 1]
  | .loop lower upper ahead => t.executeLoop lower upper ahead
  | .again lower back => t.executeAgain lower back
  | .closeLoop => .threads [{ t with loops := t.loops.tail }.advance 1]
  | .openGroup mode => .threads [{ t with frames := ⟨mode, t.walk.length⟩ :: t.frames }.advance 1]
  | .closeGroup name condition grouped => t.executeCloseGroup env name condition grouped
  | .accept => .accepted t

/-! ## Bounds -/

@[simp] theorem room_advance (t : Thread) (n : Nat) : (t.advance n).room = t.room := rfl

@[simp] theorem slack_advance (t : Thread) (n : Nat) : (t.advance n).slack = t.slack := rfl

@[simp] theorem room_bind (t : Thread) (name : Option String) (grouped : Bool) (x : ElementId) :
    (t.bind name grouped x).room = t.room := by
  unfold bind; split <;> (try split) <;> (try split) <;> rfl

@[simp] theorem slack_bind (t : Thread) (name : Option String) (grouped : Bool) (x : ElementId) :
    (t.bind name grouped x).slack = t.slack := by
  unfold bind; split <;> (try split) <;> (try split) <;> rfl

@[simp] theorem walk_advance (t : Thread) (n : Nat) : (t.advance n).walk = t.walk := rfl

@[simp] theorem walk_bind (t : Thread) (name : Option String) (grouped : Bool) (x : ElementId) :
    (t.bind name grouped x).walk = t.walk := by
  unfold bind; split <;> (try split) <;> (try split) <;> rfl

@[simp] theorem room_cross (t : Thread) (p : EdgePattern) (g : Bool) (e : EdgeId) (v : VertexId)
    (room slack : Nat) : (t.cross p g e v room slack).room = room := by
  simp [cross]

@[simp] theorem slack_cross (t : Thread) (p : EdgePattern) (g : Bool) (e : EdgeId) (v : VertexId)
    (room slack : Nat) : (t.cross p g e v room slack).slack = slack := by
  simp [cross]

@[simp] theorem walk_cross (t : Thread) (p : EdgePattern) (g : Bool) (e : EdgeId) (v : VertexId)
    (room slack : Nat) : (t.cross p g e v room slack).walk = t.walk.extend e v := by
  simp [cross]

/-- The threads that an instruction leads to have the room, the slack and the walk of the one that
ran it. -/
theorem execute_bounded {env : Env} {t u : Thread} {i : Inst} {ts : List Thread}
    (h : t.execute env i = .threads ts) (hu : u ∈ ts) :
    u.room = t.room ∧ u.slack = t.slack ∧ u.walk = t.walk := by
  cases i with
  | node pattern grouped =>
    simp only [execute, executeNode] at h
    split at h
    · cases h; simp at hu; subst hu; simp
    · cases h
  | edge pattern grouped =>
    simp only [execute] at h
    split at h <;> cases h
  | split ahead =>
    simp only [execute, Effect.threads.injEq] at h
    subst h
    simp only [List.mem_cons, List.not_mem_nil, or_false] at hu
    rcases hu with rfl | rfl <;> simp
  | jump ahead =>
    simp only [execute, Effect.threads.injEq] at h
    subst h; simp at hu; subst hu; simp
  | openLoop =>
    simp only [execute, Effect.threads.injEq] at h
    subst h; simp at hu; subst hu; simp
  | loop lower upper ahead =>
    simp only [execute, executeLoop] at h
    split at h
    · cases h; simp at hu
    · split at h
      · cases h; simp at hu; subst hu; simp
      · split at h
        · cases h; simp at hu; subst hu; simp
        · cases h
          simp only [List.mem_cons, List.not_mem_nil, or_false] at hu
          rcases hu with rfl | rfl <;> simp
  | again lower back =>
    simp only [execute, executeAgain] at h
    split at h
    · cases h; simp at hu
    · split at h
      · cases h
      · cases h; simp at hu; subst hu; simp
  | closeLoop =>
    simp only [execute, Effect.threads.injEq] at h
    subst h; simp at hu; subst hu; simp
  | openGroup mode =>
    simp only [execute, Effect.threads.injEq] at h
    subst h; simp at hu; subst hu; simp
  | closeGroup name condition grouped =>
    simp only [execute, executeCloseGroup] at h
    split at h
    · cases h; simp at hu
    · split at h
      · cases h
      · cases h; simp at hu; subst hu; simp
  | accept => simp [execute] at h

theorem execute_wantsEdge {env : Env} {t u : Thread} {i : Inst} {p : EdgePattern} {g : Bool}
    {room : Nat} (h : t.execute env i = .wantsEdge u p g room) :
    u = t ∧ t.room = room + 1 ∧ i = .edge p g := by
  cases i with
  | edge pattern grouped =>
    simp only [execute] at h
    split at h
    · cases h
    · next r hr => cases h; exact ⟨rfl, hr, rfl⟩
  | node pattern grouped =>
    simp only [execute, executeNode] at h
    split at h <;> cases h
  | loop lower upper ahead =>
    simp only [execute, executeLoop] at h
    split at h <;> (try split at h) <;> (try split at h) <;> cases h
  | again lower back =>
    simp only [execute, executeAgain] at h
    split at h <;> (try split at h) <;> cases h
  | closeGroup name condition grouped =>
    simp only [execute, executeCloseGroup] at h
    split at h <;> (try split at h) <;> cases h
  | split ahead => cases h
  | jump ahead => cases h
  | openLoop => cases h
  | closeLoop => cases h
  | openGroup mode => cases h
  | accept => cases h

theorem execute_accepted {env : Env} {t u : Thread} {i : Inst}
    (h : t.execute env i = .accepted u) : u = t ∧ i = .accept := by
  cases i with
  | accept => cases h; exact ⟨rfl, rfl⟩
  | _ =>
    simp only [execute, executeNode, executeLoop, executeAgain, executeCloseGroup] at h
    (repeat' split at h) <;> cases h

theorem execute_blocked {env : Env} {t : Thread} {i : Inst} (h : t.execute env i = .blocked) :
    t.room = 0 ∧ ∃ pattern grouped, i = .edge pattern grouped := by
  cases i with
  | edge pattern grouped =>
    simp only [execute] at h
    split at h
    · next hr => exact ⟨hr, pattern, grouped, rfl⟩
    · cases h
  | _ =>
    simp only [execute, executeNode, executeLoop, executeAgain, executeCloseGroup] at h
    (repeat' split at h) <;> cases h

end Thread

end GraphPatterns
