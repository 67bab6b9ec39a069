/-
The same choice under two limits. A thread with more room for edges does what a thread with less room
does, except where the latter wants an edge and has no room for it. So the arrivals under the smaller
limit are, in order, those under the larger one whose walks are short enough (`arrivals_deepen`), and
they are all of them if no thread was blocked (`outcomes_deepen`).
-/
import GraphPatterns.Proofs.Outcomes

namespace GraphPatterns

namespace Thread

variable {env : Env} {t : Thread} {i : Inst}

/-- The thread with room for `k` more edges. -/
def deepen (k : Nat) (t : Thread) : Thread := { t with room := t.room + k }

@[simp] theorem room_deepen (k : Nat) : (t.deepen k).room = t.room + k := rfl

@[simp] theorem walk_deepen (k : Nat) : (t.deepen k).walk = t.walk := rfl

@[simp] theorem loops_deepen (k : Nat) : (t.deepen k).loops = t.loops := rfl

@[simp] theorem frames_deepen (k : Nat) : (t.deepen k).frames = t.frames := rfl
@[simp] theorem bindings_deepen (k : Nat) : (t.deepen k).bindings = t.bindings := rfl

theorem deepen_advance (k n : Nat) : (t.advance n).deepen k = (t.deepen k).advance n := rfl

theorem deepen_bind (k : Nat) (name : Option String) (grouped : Bool) (x : ElementId) :
    (t.bind name grouped x).deepen k = (t.deepen k).bind name grouped x := by
  cases name with
  | none => rfl
  | some name =>
    simp only [bind, apply_ite (deepen k)]
    exact if_congr Iff.rfl rfl (if_congr Iff.rfl rfl rfl)

theorem deepen_cross (k : Nat) (pattern : EdgePattern) (grouped : Bool) (e : EdgeId) (v : VertexId)
    (room slack : Nat) : (t.cross pattern grouped e v room slack).deepen k =
      (t.deepen k).cross pattern grouped e v (room + k) slack := by
  simp only [cross, deepen_bind]
  rfl

end Thread

/-- An effect with room for `k` more edges. -/
def Effect.deepen (k : Nat) : Effect → Effect
  | .threads ts => .threads (ts.map (·.deepen k))
  | .pruned => .pruned
  | .blocked => .blocked
  | .wantsEdge t pattern grouped room => .wantsEdge (t.deepen k) pattern grouped (room + k)
  | .accepted t => .accepted (t.deepen k)

/-- The room makes a difference only to a thread that is blocked. -/
theorem Thread.execute_deepen {env : Env} {t : Thread} {i : Inst} (k : Nat)
    (h : t.execute env i ≠ .blocked) :
    (t.deepen k).execute env i = (t.execute env i).deepen k := by
  cases i with
  | node pattern grouped =>
    simp only [execute, executeNode, apply_ite (Effect.deepen k)]
    refine if_congr Iff.rfl ?_ rfl
    simp [Effect.deepen, deepen_advance, deepen_bind]
  | edge pattern grouped =>
    simp only [execute] at h ⊢
    cases hr : t.room with
    | zero => simp [hr] at h
    | succ r =>
      rw [room_deepen, hr, Nat.add_right_comm]
      rfl
  | loop lower upper ahead =>
    simp only [execute, executeLoop, loops_deepen]
    split
    · rfl
    · split
      · rfl
      · split <;> rfl
  | again lower back =>
    simp only [execute, executeAgain, loops_deepen]
    split
    · rfl
    · rw [apply_ite (Effect.deepen k)]
      exact if_congr Iff.rfl rfl rfl
  | closeGroup name condition grouped =>
    simp only [execute, executeCloseGroup, frames_deepen]
    split
    · rfl
    · simp only [walk_deepen, bindings_deepen]
      split <;> rfl
  | split ahead => rfl
  | jump ahead => rfl
  | openLoop => rfl
  | closeLoop => rfl
  | openGroup mode => rfl
  | accept => rfl

/-- An outcome with room for `k` more edges. -/
def Outcome.deepen (k : Nat) : Outcome → Outcome
  | .arrives t => .arrives (t.deepen k)
  | .blocked => .blocked

theorem Outcome.arrivals_map_deepen (k : Nat) (os : List Outcome) :
    arrivals (os.map (·.deepen k)) = (arrivals os).map (·.deepen k) := by
  induction os with
  | nil => rfl
  | cons o os ih =>
    cases o with
    | arrives t => exact congrArg (t.deepen k :: ·) ih
    | blocked => exact ih

namespace Choice

/-- The choice with room for `k` more edges. -/
def deepen (k : Nat) : Choice → Choice
  | .resume t => .resume (t.deepen k)
  | .extend t pattern grouped room candidates =>
    .extend (t.deepen k) pattern grouped (room + k) candidates

variable {env : Env} {p : Program}

theorem mayCross_deepen (k : Nat) (t : Thread) (pattern : EdgePattern) (grouped : Bool)
    (edge : EdgeId × VertexId) :
    mayCross env p (t.deepen k) pattern grouped edge = mayCross env p t pattern grouped edge := rfl

theorem outcomes_resume_deepen {t : Thread} {slack : Nat} {i : Inst} (k : Nat)
    (hs : t.slack = slack + 1) (hi : p.code[t.pc]? = some i)
    (h : { t with slack := slack }.execute env i ≠ .blocked) :
    (Choice.resume (t.deepen k)).outcomes env p =
      (({ t with slack := slack }.execute env i).deepen k).outcomes env p := by
  rw [← Thread.execute_deepen k h]
  exact outcomes_resume hs hi

/-- Where no thread is blocked, a larger limit changes nothing but the room that is left. -/
theorem outcomes_deepen (k : Nat) {c : Choice} (h : .blocked ∉ c.outcomes env p) :
    (c.deepen k).outcomes env p = (c.outcomes env p).map (·.deepen k) := by
  induction c using Choice.outcomes.induct env p with
  | case1 t slack i hs hi ts he ih =>
    rw [outcomes_resume hs hi, he] at h ⊢
    simp only [deepen]
    rw [outcomes_resume_deepen k hs hi (by simp [he]), he]
    simp only [Effect.deepen, Effect.outcomes, List.flatMap_map, List.map_flatMap] at h ⊢
    refine List.flatMap_congr fun u hu => ih ⟨u, hu⟩ fun hb => h ?_
    exact List.mem_flatMap.mpr ⟨u, hu, hb⟩
  | case2 t slack i hs hi he =>
    simp only [deepen]
    rw [outcomes_resume_deepen k hs hi (by simp [he]), outcomes_resume hs hi, he]
    rfl
  | case3 t slack i hs hi he =>
    rw [outcomes_resume hs hi, he] at h
    simp [Effect.outcomes] at h
  | case4 t slack i hs hi u pattern grouped room he _ _ ih =>
    rw [outcomes_resume hs hi, he] at h ⊢
    simp only [deepen]
    rw [outcomes_resume_deepen k hs hi (by simp [he]), he]
    exact ih h
  | case5 t slack i hs hi u he =>
    simp only [deepen]
    rw [outcomes_resume_deepen k hs hi (by simp [he]), outcomes_resume hs hi, he]
    rfl
  | case6 t hstuck =>
    rw [outcomes_stuck fun slack i hs hi => hstuck slack i hs hi]
    exact outcomes_stuck fun slack i hs hi => hstuck slack i hs hi
  | case7 t pattern grouped room => simp [deepen]
  | case8 t pattern grouped room edge candidates ih₁ ih₂ =>
    rw [outcomes_extend_cons, List.mem_append, not_or] at h
    simp only [deepen] at ih₁ ih₂ ⊢
    rw [outcomes_extend_cons, outcomes_extend_cons, List.map_append, ih₂ h.2, mayCross_deepen,
      ← Thread.deepen_cross]
    split
    · next hmay => rw [ih₁ (by simpa [hmay] using h.1)]
    · rfl

/-- A blocked thread goes on where there is more room, but has used up some of what it was given when
it arrives. -/
theorem room_lt_of_blocked {t u : Thread} {slack : Nat} {i : Inst} (k : Nat)
    (hs : t.slack = slack + 1) (hi : p.code[t.pc]? = some i)
    (he : { t with slack := slack }.execute env i = .blocked)
    (hu : .arrives u ∈ (Choice.resume (t.deepen k)).outcomes env p) : u.room < k := by
  obtain ⟨hroom, pattern, grouped, rfl⟩ := Thread.execute_blocked he
  simp only at hroom
  have hk : (t.deepen k).room = k := by simp [hroom]
  rw [outcomes_resume (t := t.deepen k) hs hi] at hu
  simp only [Thread.execute] at hu
  split at hu
  · simp [Effect.outcomes] at hu
  · next r hr =>
    have hle := room_le_of_arrives hu
    simp only [room] at hle
    omega

/-- The arrivals under the smaller limit are those under the larger one that leave enough room. -/
theorem arrivals_deepen (k : Nat) (c : Choice) :
    (Outcome.arrivals ((c.deepen k).outcomes env p)).filter (k ≤ ·.room) =
      (Outcome.arrivals (c.outcomes env p)).map (·.deepen k) := by
  induction c using Choice.outcomes.induct env p with
  | case1 t slack i hs hi ts he ih =>
    simp only [deepen]
    rw [outcomes_resume_deepen k hs hi (by simp [he]), outcomes_resume hs hi, he]
    simp only [Effect.deepen, Effect.outcomes, List.flatMap_map, Outcome.arrivals_flatMap,
      List.filter_flatMap, List.map_flatMap]
    exact List.flatMap_congr fun u hu => ih ⟨u, hu⟩
  | case2 t slack i hs hi he =>
    simp only [deepen]
    rw [outcomes_resume_deepen k hs hi (by simp [he]), outcomes_resume hs hi, he]
    rfl
  | case3 t slack i hs hi he =>
    rw [outcomes_resume hs hi, he]
    simp only [Effect.outcomes, Outcome.arrivals_blocked, Outcome.arrivals_nil, List.map_nil,
      List.filter_eq_nil_iff]
    intro u hu
    have := room_lt_of_blocked k hs hi he (Outcome.mem_arrivals.mp hu)
    simp only [decide_eq_true_eq]
    omega
  | case4 t slack i hs hi u pattern grouped room he _ _ ih =>
    simp only [deepen]
    rw [outcomes_resume_deepen k hs hi (by simp [he]), outcomes_resume hs hi, he]
    exact ih
  | case5 t slack i hs hi u he =>
    simp only [deepen]
    rw [outcomes_resume_deepen k hs hi (by simp [he]), outcomes_resume hs hi, he]
    simp [Effect.deepen, Effect.outcomes]
  | case6 t hstuck =>
    rw [outcomes_stuck fun slack i hs hi => hstuck slack i hs hi]
    simp only [deepen]
    rw [outcomes_stuck (t := t.deepen k) fun slack i hs hi => hstuck slack i hs hi]
    rfl
  | case7 t pattern grouped room => simp [deepen]
  | case8 t pattern grouped room edge candidates ih₁ ih₂ =>
    simp only [deepen] at ih₁ ih₂ ⊢
    rw [outcomes_extend_cons, outcomes_extend_cons, Outcome.arrivals_append,
      Outcome.arrivals_append, List.filter_append, List.map_append, ih₂, mayCross_deepen,
      ← Thread.deepen_cross]
    split
    · rw [ih₁]
    · rfl

end Choice

end GraphPatterns
