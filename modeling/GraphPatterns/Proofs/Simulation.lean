/-
Code that does what a part of a pattern means. A piece of code implements a list of ways (`Implements`)
if a thread that enters it leaves it, one after the other, at each of these ways and nowhere else, with
the stacks of loops and groups as they were. So every construct of a pattern has one lemma about its
code. The same lemmas count instructions: what a thread may execute between two edges is never used up.
-/
import GraphPatterns.Proofs.Outcomes
import GraphPatterns.Proofs.Ways
import Mathlib.Data.List.Basic
import Mathlib.Tactic.Set

namespace GraphPatterns

namespace Thread

/-- What a thread has matched, apart from its place in the program. -/
def stage (t : Thread) : Stage where
  walk := t.walk
  bindings := t.bindings
  taken := t.taken.map fun b => (b.name, b.element)
  room := t.room

theorem get?_map_taken (taken : List Taken) (name : String) :
    Assoc.get? (taken.map fun b => (b.name, b.element)) name =
      (taken.find? (·.name == name)).map (·.element) := by
  induction taken with
  | nil => rfl
  | cons b taken ih =>
    rw [List.map_cons, Assoc.get?, List.find?_cons]
    by_cases h : b.name = name
    · simp [h]
    · have hb : (b.name == name) = false := by simpa using h
      rw [if_neg h, hb]
      exact ih

theorem takenBy?_stage (t : Thread) (name : Option String) :
    t.stage.takenBy? name = t.takenBy? name := by
  cases name with
  | none => rfl
  | some name => exact get?_map_taken t.taken name

theorem stage_bind (t : Thread) (name : Option String) (repeated : Bool) (x : ElementId) :
    (t.bind name repeated x).stage = t.stage.bind name repeated x := by
  cases name with
  | none => rfl
  | some name =>
    simp only [bind, Stage.bind, takenBy?_stage, apply_ite stage]
    refine if_congr Iff.rfl rfl (if_congr Iff.rfl rfl ?_)
    simp [stage]

theorem bind_keeps (t : Thread) (name : Option String) (repeated : Bool) (x : ElementId) :
    (t.bind name repeated x).pc = t.pc ∧ (t.bind name repeated x).loops = t.loops ∧
      (t.bind name repeated x).frames = t.frames ∧
      ∃ new, (t.bind name repeated x).taken = t.taken ++ new ∧
        ∀ b ∈ new, b.depth = t.loops.length := by
  have same : ∃ new, t.taken = t.taken ++ new ∧ ∀ b ∈ new, b.depth = t.loops.length :=
    ⟨[], by simp, by simp⟩
  unfold bind
  split
  · exact ⟨rfl, rfl, rfl, same⟩
  · split
    · exact ⟨rfl, rfl, rfl, same⟩
    · split
      · exact ⟨rfl, rfl, rfl, same⟩
      · exact ⟨rfl, rfl, rfl, _, rfl, by simp⟩

end Thread

/-! ## Code in a program -/

section Drop

variable {α : Type} {all part more : List α} {a : α} {n : Nat}

/-- What stands after a part that stands at a place. -/
theorem prefix_drop_right (h : part ++ more <+: all.drop n) : more <+: all.drop (n + part.length) := by
  obtain ⟨rest, hrest⟩ := h
  refine ⟨rest, ?_⟩
  rw [← List.drop_drop, ← hrest, List.append_assoc, List.drop_left]

theorem prefix_drop_tail (h : a :: part <+: all.drop n) : part <+: all.drop (n + 1) :=
  prefix_drop_right (show [a] ++ part <+: all.drop n from h)

theorem getElem?_of_prefix_drop (h : a :: part <+: all.drop n) : all[n]? = some a := by
  obtain ⟨rest, hrest⟩ := h
  rw [← List.head?_drop, ← hrest]
  rfl

end Drop

/-- Some code stands at a place of a program. -/
def Stands (p : Program) (pc : Nat) (code : List Inst) : Prop := code <+: p.code.drop pc

namespace Stands

variable {p : Program} {pc : Nat} {i : Inst} {code more : List Inst}

theorem left (h : Stands p pc (code ++ more)) : Stands p pc code :=
  (List.prefix_append code more).trans h

theorem right (h : Stands p pc (code ++ more)) : Stands p (pc + code.length) more :=
  prefix_drop_right h

theorem tail (h : Stands p pc (i :: code)) : Stands p (pc + 1) code := prefix_drop_tail h

theorem head (h : Stands p pc (i :: code)) : p.code[pc]? = some i := getElem?_of_prefix_drop h

end Stands

/-! ## Threads through a piece of code -/

/-- The second thread has come from the first one through code of the given length. What variables
took on the way, they took in the innermost repetition; and the instructions on the way since the last
edge were no more than `cost`. -/
structure Follows (idle length cost : Nat) (t u : Thread) : Prop where
  pc : u.pc = t.pc + length
  loops : u.loops = t.loops
  frames : u.frames = t.frames
  taken : ∃ new, u.taken = t.taken ++ new ∧ ∀ b ∈ new, b.depth = t.loops.length
  limit : u.walk.length + u.room = t.walk.length + t.room
  room : u.room ≤ t.room
  near : u.room = t.room → t.slack ≤ u.slack + cost
  far : u.room < t.room → idle ≤ u.slack + cost

namespace Follows

variable {idle l₁ l₂ c₁ c₂ : Nat} {t u v : Thread}

theorem advance (t : Thread) {slack : Nat} (h : t.slack = slack + 1) (n : Nat) :
    Follows idle n 1 t ({ t with slack := slack }.advance n) where
  pc := rfl
  loops := rfl
  frames := rfl
  taken := ⟨[], by simp [Thread.advance], by simp⟩
  limit := rfl
  room := Nat.le_refl _
  near _ := Nat.le_of_eq h
  far hr := absurd hr (Nat.lt_irrefl _)

/-- One piece of code after another. The instructions of the first one count only as long as no edge
is crossed in the second one. -/
theorem chain (h₁ : Follows idle l₁ c₁ t u) (h₂ : Follows idle l₂ c₂ u v) {c : Nat} (hc : c₂ ≤ c)
    (near : v.room = t.room → t.slack ≤ v.slack + c)
    (far : u.room < t.room → v.room = u.room → idle ≤ v.slack + c) :
    Follows idle (l₁ + l₂) c t v where
  pc := by rw [h₂.pc, h₁.pc, Nat.add_assoc]
  loops := h₂.loops.trans h₁.loops
  frames := h₂.frames.trans h₁.frames
  taken := by
    obtain ⟨new₁, ht₁, hd₁⟩ := h₁.taken
    obtain ⟨new₂, ht₂, hd₂⟩ := h₂.taken
    refine ⟨new₁ ++ new₂, by rw [ht₂, ht₁, List.append_assoc], fun b hb => ?_⟩
    rcases List.mem_append.mp hb with hb | hb
    · exact hd₁ b hb
    · rw [hd₂ b hb, h₁.loops]
  limit := h₂.limit.trans h₁.limit
  room := Nat.le_trans h₂.room h₁.room
  near := near
  far h := by
    rcases Nat.lt_or_ge v.room u.room with hv | hv
    · exact Nat.le_trans (h₂.far hv) (Nat.add_le_add_left hc _)
    · have huv : v.room = u.room := Nat.le_antisymm h₂.room hv
      exact far (huv ▸ h) huv

theorem trans (h₁ : Follows idle l₁ c₁ t u) (h₂ : Follows idle l₂ c₂ u v) :
    Follows idle (l₁ + l₂) (c₁ + c₂) t v := by
  refine h₁.chain h₂ (Nat.le_add_left _ _) (fun hv => ?_) fun hu huv => ?_
  · have r₁ := h₁.room
    have r₂ := h₂.room
    have s₁ := h₁.near (by omega)
    have s₂ := h₂.near (by omega)
    omega
  · have s₁ := h₁.far hu
    have s₂ := h₂.near huv
    omega

theorem mono (h : Follows idle l₁ c₁ t u) (hl : l₁ = l₂) (hc : c₁ ≤ c₂) :
    Follows idle l₂ c₂ t u where
  __ := h
  pc := hl ▸ h.pc
  near hu := Nat.le_trans (h.near hu) (Nat.add_le_add_left hc _)
  far hu := Nat.le_trans (h.far hu) (Nat.add_le_add_left hc _)

/-- Code inside a group, seen from outside: the group is closed again, and what is bound then has no
bearing on the way through the code. -/
theorem closed {frames : List Frame} (h : Follows idle l₁ c₁ { t with frames := frames } u)
    (bindings : Bindings) :
    Follows idle l₁ c₁ t { u with bindings := bindings, frames := t.frames } where
  __ := h
  frames := rfl

/-- What remains of the slack after some code, if there was enough before it. -/
theorem enough (h : Follows idle l₁ c₁ t u) {n : Nat} (ht : c₁ + n ≤ t.slack)
    (hidle : c₁ + n ≤ idle) : n ≤ u.slack := by
  rcases Nat.lt_or_ge u.room t.room with hr | hr
  · have := h.far hr
    omega
  · have := h.near (Nat.le_antisymm h.room hr)
    omega

/-- What variables have taken lies in the loops around the place, also further on. -/
theorem settled (h : Follows idle l₁ c₁ t u) (ht : ∀ b ∈ t.taken, b.depth ≤ t.loops.length) :
    ∀ b ∈ u.taken, b.depth ≤ u.loops.length := by
  intro b hb
  obtain ⟨new, hnew, hd⟩ := h.taken
  rw [hnew, List.mem_append] at hb
  rw [h.loops]
  rcases hb with hb | hb
  · exact ht b hb
  · exact Nat.le_of_eq (hd b hb)

end Follows

namespace Choice

/-- The stages with which threads come to the end of the program. -/
def stages (env : Env) (p : Program) (c : Choice) : List Stage :=
  (Outcome.arrivals (c.outcomes env p)).map Thread.stage

variable {env : Env} {p : Program} {t : Thread} {slack : Nat} {i : Inst}

theorem stages_threads {ts : List Thread} (hs : t.slack = slack + 1)
    (hi : p.code[t.pc]? = some i) (h : { t with slack := slack }.execute env i = .threads ts) :
    (Choice.resume t).stages env p = ts.flatMap fun u => (Choice.resume u).stages env p := by
  simp only [stages, outcomes_resume hs hi, h, Effect.outcomes, Outcome.arrivals_flatMap,
    List.map_flatMap]

theorem stages_thread {u : Thread} (hs : t.slack = slack + 1) (hi : p.code[t.pc]? = some i)
    (h : { t with slack := slack }.execute env i = .threads [u]) :
    (Choice.resume t).stages env p = (Choice.resume u).stages env p := by
  rw [stages_threads hs hi h, List.flatMap_singleton]

theorem stages_pruned (hs : t.slack = slack + 1) (hi : p.code[t.pc]? = some i)
    (h : { t with slack := slack }.execute env i = .pruned) :
    (Choice.resume t).stages env p = [] := by
  simp [stages, outcomes_resume hs hi, h, Effect.outcomes]

theorem stages_blocked (hs : t.slack = slack + 1) (hi : p.code[t.pc]? = some i)
    (h : { t with slack := slack }.execute env i = .blocked) :
    (Choice.resume t).stages env p = [] := by
  simp [stages, outcomes_resume hs hi, h, Effect.outcomes]

theorem stages_wantsEdge {u : Thread} {pattern : EdgePattern} {grouped : Bool} {room : Nat}
    (hs : t.slack = slack + 1) (hi : p.code[t.pc]? = some i)
    (h : { t with slack := slack }.execute env i = .wantsEdge u pattern grouped room) :
    (Choice.resume t).stages env p =
      (env.store.neighbors u.walk.current pattern.direction).flatMap fun edge =>
        if mayCross env p u pattern grouped edge then
          (Choice.resume (u.cross pattern grouped edge.1 edge.2 room p.idle)).stages env p
        else [] := by
  simp only [stages, outcomes_resume hs hi, h, Effect.outcomes, outcomes_extend,
    Outcome.arrivals_flatMap, List.map_flatMap]
  refine List.flatMap_congr fun edge _ => ?_
  split <;> rfl

theorem stages_accepted {u : Thread} (hs : t.slack = slack + 1) (hi : p.code[t.pc]? = some i)
    (h : { t with slack := slack }.execute env i = .accepted u) :
    (Choice.resume t).stages env p = [u.stage] := by
  simp [stages, outcomes_resume hs hi, h, Effect.outcomes]

end Choice

/-! ## Code that implements ways -/

/-- The code of the given length at a place implements some ways, with no more than `cost`
instructions between two edges. Whatever comes of the threads that leave it, comes of the thread that
enters it. -/
def Implements (p : Program) (c : Surroundings) (pc length cost : Nat)
    (ways : Stage → List Stage) : Prop :=
  ∀ (t : Thread) (k : Stage → List Stage), t.pc = pc → t.frames = c.frames →
    (∀ b ∈ t.taken, b.depth ≤ t.loops.length) → cost ≤ t.slack →
    (∀ u, Follows p.idle length cost t u → u.stage ∈ ways t.stage →
      (Choice.resume u).stages c.env p = k u.stage) →
    (Choice.resume t).stages c.env p = (ways t.stage).flatMap k

namespace Implements

variable {p : Program} {c : Surroundings} {pc l₁ l₂ c₁ c₂ : Nat} {w₁ w₂ : Stage → List Stage}

theorem mono (h : Implements p c pc l₁ c₁ w₁) (hc : c₁ ≤ c₂) : Implements p c pc l₁ c₂ w₁ :=
  fun t k hpc hf ht hs hk =>
    h t k hpc hf ht (Nat.le_trans hc hs) fun u hu => hk u (hu.mono rfl hc)

theorem congr (h : Implements p c pc l₁ c₁ w₁) (hw : ∀ s, w₂ s = w₁ s) :
    Implements p c pc l₁ c₁ w₂ := by
  obtain rfl : w₂ = w₁ := funext hw
  exact h

theorem nothing : Implements p c pc 0 0 fun s => [s] := by
  intro t k hpc hf ht hs hk
  rw [List.flatMap_singleton]
  exact hk t ⟨rfl, rfl, rfl, ⟨[], by simp, by simp⟩, rfl, Nat.le_refl _, by simp, by simp⟩ (by simp)

theorem seq (h₁ : Implements p c pc l₁ c₁ w₁) (h₂ : Implements p c (pc + l₁) l₂ c₂ w₂)
    (hidle : c₁ + c₂ ≤ p.idle) :
    Implements p c pc (l₁ + l₂) (c₁ + c₂) fun s => (w₁ s).flatMap w₂ := by
  intro t k hpc hf ht hs hk
  rw [List.flatMap_assoc]
  refine h₁ t _ hpc hf ht (by omega) fun u hu hmem => ?_
  have hslack : c₂ ≤ u.slack := hu.enough hs hidle
  refine h₂ u k (by rw [hu.pc, hpc]) (hu.frames.trans hf) (hu.settled ht) hslack fun v hv hmem₂ => ?_
  exact hk v (hu.trans hv) (List.mem_flatMap.mpr ⟨_, hmem, hmem₂⟩)

theorem node {f : NodePattern} (h : Stands p pc [.node f c.repeated]) :
    Implements p c pc 1 1 ((Element.node f).ways c) := by
  intro t k hpc hf ht hs hk
  obtain ⟨slack, hslack⟩ : ∃ slack, t.slack = slack + 1 := ⟨t.slack - 1, by omega⟩
  have hi : p.code[t.pc]? = some (.node f c.repeated) := hpc ▸ h.head
  have hadmits : c.admits t.stage f (.vertex t.walk.current) =
      f.admits c.env t.bindings c.repeated (t.takenBy? f.name) (.vertex t.walk.current) := by
    rw [Surroundings.admits, Thread.takenBy?_stage]; rfl
  simp only [Element.ways] at hk ⊢
  have hx : t.stage.walk.current = t.walk.current := rfl
  rw [hx, hadmits] at hk ⊢
  split
  · next hc =>
    rw [if_pos hc] at hk
    set next := ({ t with slack := slack }.bind f.name c.repeated (.vertex t.walk.current)).advance 1
      with hnext
    have hstage : next.stage = t.stage.bind f.name c.repeated (.vertex t.walk.current) := by
      rw [hnext]; exact Thread.stage_bind { t with slack := slack } ..
    have hexec : { t with slack := slack }.execute c.env (.node f c.repeated) = .threads [next] :=
      if_pos hc
    rw [Choice.stages_thread hslack hi hexec, List.flatMap_singleton, ← hstage]
    obtain ⟨hp, hl, hfr, htk⟩ :=
      Thread.bind_keeps { t with slack := slack } f.name c.repeated (.vertex t.walk.current)
    refine hk next ⟨congrArg (· + 1) hp, hl, hfr, htk, ?_, ?_, ?_, ?_⟩ (by simp [hstage])
    · simp [hnext]
    · simp [hnext]
    · simp [hnext, hslack]
    · simp [hnext]
  · next hc => exact Choice.stages_pruned hslack hi (if_neg hc)

theorem edge {pattern : EdgePattern} (h : Stands p pc [.edge pattern c.repeated])
    (hmode : c.mode = p.mode) : Implements p c pc 1 1 ((Element.edge pattern).ways c) := by
  intro t k hpc hf ht hs hk
  obtain ⟨slack, hslack⟩ : ∃ slack, t.slack = slack + 1 := ⟨t.slack - 1, by omega⟩
  have hi : p.code[t.pc]? = some (.edge pattern c.repeated) := hpc ▸ h.head
  simp only [Element.ways] at hk ⊢
  have hroom : t.stage.room = t.room := rfl
  rw [hroom] at hk ⊢
  cases hr : t.room with
  | zero =>
    rw [Choice.stages_blocked hslack hi (by simp [Thread.execute, hr])]
    rfl
  | succ room =>
    simp only [hr] at hk ⊢
    have hexec : { t with slack := slack }.execute c.env (.edge pattern c.repeated) =
        .wantsEdge { t with slack := slack } pattern c.repeated room := by
      simp [Thread.execute, hr]
    rw [Choice.stages_wantsEdge hslack hi hexec, List.flatMap_assoc]
    refine List.flatMap_congr fun e he => ?_
    have hmay : Choice.mayCross c.env p { t with slack := slack } pattern c.repeated e =
        (c.admitsStep t.stage.walk e.1 e.2 && c.admits t.stage pattern.filler (.edge e.1)) := by
      rw [Surroundings.admits, Surroundings.admitsStep, Thread.takenBy?_stage, hmode, ← hf]
      rfl
    rw [hmay]
    split
    · next hc =>
      set next := { t with slack := slack }.cross pattern c.repeated e.1 e.2 room p.idle with hnext
      have hstage : next.stage = t.stage.cross pattern c.repeated e.1 e.2 room :=
        Thread.stage_bind ..
      rw [List.flatMap_singleton, ← hstage]
      obtain ⟨hp, hl, hfr, htk⟩ := Thread.bind_keeps
        { t with
          pc := t.pc + 1
          walk := t.walk.extend e.1 e.2
          room := room
          slack := p.idle } pattern.filler.name c.repeated (.edge e.1)
      refine hk next ⟨hp, hl, hfr, htk, ?_, ?_, ?_, ?_⟩ ?_
      · simp only [hnext, Thread.walk_cross, Walk.length_extend, Thread.room_cross]; omega
      · simp only [hnext, Thread.room_cross]; omega
      · simp only [hnext, Thread.room_cross]; omega
      · simp [hnext]
      · exact List.mem_flatMap.mpr ⟨e, he, by rw [if_pos hc]; simp [hstage]⟩
    · rfl

theorem group {name : Option String} {mode : Option PathMode} {body : PathExpr}
    {condition : Option Expr}
    (h : Stands p pc ((Element.group name mode body condition).code c.repeated))
    (hbody : ∀ start,
      let inside := { c with frames := ⟨mode.getD .walk, start⟩ :: c.frames }
      Implements p inside (pc + 1) (body.code c.repeated).length body.idleSteps (body.ways inside))
    (hidle : 2 + body.idleSteps ≤ p.idle) :
    Implements p c pc ((Element.group name mode body condition).code c.repeated).length
      (2 + body.idleSteps) ((Element.group name mode body condition).ways c) := by
  intro t k hpc hf ht hs hk
  rw [Element.code, List.cons_append] at h
  obtain ⟨slack, hslack⟩ : ∃ slack, t.slack = slack + 1 := ⟨t.slack - 1, by omega⟩
  set inner := { t with
    slack := slack
    frames := ⟨mode.getD .walk, t.walk.length⟩ :: t.frames }.advance 1 with hinner
  have hopen : { t with slack := slack }.execute c.env (.openGroup (mode.getD .walk)) =
      .threads [inner] := rfl
  have hpc' : inner.pc = pc + 1 := congrArg (· + 1) hpc
  rw [Choice.stages_thread hslack (hpc ▸ h.head) hopen]
  simp only [Element.ways] at hk ⊢
  rw [List.flatMap_assoc]
  refine hbody t.walk.length inner _ hpc' (by rw [← hf]; rfl) ht
    (by simp only [hinner, Thread.slack_advance]; omega) fun u hu hmem => ?_
  -- At the end of the body the group is the innermost frame again.
  have hframes : u.frames = ⟨mode.getD .walk, t.walk.length⟩ :: t.frames := hu.frames
  have hus : 1 ≤ u.slack := hu.enough (by simp only [hinner, Thread.slack_advance]; omega) (by omega)
  obtain ⟨left, hleft⟩ : ∃ left, u.slack = left + 1 := ⟨u.slack - 1, by omega⟩
  have hclose : p.code[u.pc]? = some (.closeGroup name condition c.repeated) := by
    rw [hu.pc, hpc']
    exact h.tail.right.head
  have hlength : t.stage.walk.length = t.walk.length := rfl
  have hwalk : u.stage.walk = u.walk := rfl
  have hbind : u.stage.bindings = u.bindings := rfl
  simp only [hlength, hwalk, hbind]
  cases hb : Thread.closeGroup? c.env u.bindings (u.walk.since t.walk.length).toPath name condition
      c.repeated with
  | none =>
    refine Choice.stages_pruned hleft hclose ?_
    simp only [Thread.execute, Thread.executeCloseGroup, hframes, hb]
  | some bindings =>
    have hexec : { u with slack := left }.execute c.env (.closeGroup name condition c.repeated) =
        .threads [{ u with slack := left, bindings := bindings, frames := t.frames }.advance 1] := by
      simp only [Thread.execute, Thread.executeCloseGroup, hframes, hb]
    rw [Choice.stages_thread hleft hclose hexec, List.flatMap_singleton]
    have hinside := (Follows.advance
      { t with frames := ⟨mode.getD .walk, t.walk.length⟩ :: t.frames } hslack 1).trans hu
    have hout := (hinside.closed bindings).trans
      (Follows.advance { u with bindings := bindings, frames := t.frames } hleft 1)
    refine hk _ (hout.mono ?_ (by omega)) (List.mem_flatMap.mpr ⟨u.stage, hmem, ?_⟩)
    · simp only [Element.code, List.length_append, List.length_cons, List.length_nil]
      omega
    · simp only [hlength, hbind, hwalk, hb, List.mem_singleton]
      rfl

theorem alternation {a b : List Inst}
    (h : Stands p pc (.split (a.length + 2) :: a ++ .jump (b.length + 1) :: b))
    (ha : Implements p c (pc + 1) a.length c₁ w₁)
    (hb : Implements p c (pc + a.length + 2) b.length c₂ w₂) (hidle : 2 + c₁ ≤ p.idle) :
    Implements p c pc (a.length + b.length + 2) (2 + c₁ + c₂) fun s => w₁ s ++ w₂ s := by
  intro t k hpc hf ht hs hk
  rw [List.cons_append] at h
  obtain ⟨slack, hslack⟩ : ∃ slack, t.slack = slack + 1 := ⟨t.slack - 1, by omega⟩
  have hsplit : { t with slack := slack }.execute c.env (.split (a.length + 2)) =
      .threads [{ t with slack := slack }.advance 1,
        { t with slack := slack }.advance (a.length + 2)] := rfl
  rw [Choice.stages_threads hslack (hpc ▸ h.head) hsplit, List.flatMap_append, List.flatMap_cons,
    List.flatMap_singleton]
  congr 1
  · refine ha _ k (congrArg (· + 1) hpc) hf ht (by simp only [Thread.slack_advance]; omega)
      fun u hu hmem => ?_
    have hus : 1 ≤ u.slack := hu.enough (by simp only [Thread.slack_advance]; omega) (by omega)
    obtain ⟨left, hleft⟩ : ∃ left, u.slack = left + 1 := ⟨u.slack - 1, by omega⟩
    have hupc : u.pc = pc + 1 + a.length := by rw [hu.pc]; simp [Thread.advance, hpc]
    have hjump : { u with slack := left }.execute c.env (.jump (b.length + 1)) =
        .threads [{ u with slack := left }.advance (b.length + 1)] := rfl
    rw [Choice.stages_thread hleft (hupc ▸ h.tail.right.head) hjump]
    have hout := ((Follows.advance t hslack 1).trans hu).trans
      (Follows.advance u hleft (b.length + 1))
    exact hk _ (hout.mono (by omega) (by omega)) (List.mem_append_left _ hmem)
  · refine hb _ k (by simp only [Thread.advance, hpc]; omega) hf ht
      (by simp only [Thread.slack_advance]; omega) fun u hu hmem => ?_
    have hout := (Follows.advance t hslack (a.length + 2)).trans hu
    exact hk u (hout.mono (by omega) (by omega)) (List.mem_append_right _ hmem)

end Implements

end GraphPatterns
