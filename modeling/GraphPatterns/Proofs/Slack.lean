/-
What a thread may execute before its next edge is never used up. A choice is sustained if none of the
threads that come of it stops for want of slack. A piece of code keeps a thread going (`Sustains`) if the
thread is sustained as soon as all threads are that leave the code; every construct of a pattern has code
that does, and so has a whole program (`PathPattern.isSustained`).

The measure of a loop is its own recursion: a repetition that is owed brings it closer to the lower
bound, and one that is not owed has to take an edge, which leaves less room.
-/
import GraphPatterns.Proofs.Loops
import GraphPatterns.Proofs.Threads

namespace GraphPatterns

/-- No thread that comes of a choice stops for want of slack: each has some left and stands at an
instruction. -/
inductive Choice.Sustained (env : Env) (p : Program) : Choice → Prop where
  | resume {t : Thread} {slack : Nat} {i : Inst} (hslack : t.slack = slack + 1)
    (hi : p.code[t.pc]? = some i)
    (h : ∀ c ∈ ({ t with slack := slack }.execute env i).choices env, Sustained env p c) :
    Sustained env p (.resume t)
  | extend {t : Thread} {pattern : EdgePattern} {grouped : Bool} {room : Nat}
    {candidates : List (EdgeId × VertexId)}
    (h : ∀ edge ∈ candidates, mayCross env p t pattern grouped edge = true →
      Sustained env p (.resume (t.cross pattern grouped edge.1 edge.2 room p.idle))) :
    Sustained env p (.extend t pattern grouped room candidates)

namespace Choice.Sustained

variable {env : Env} {p : Program} {t : Thread} {slack : Nat} {i : Inst}

theorem threads {ts : List Thread} (hslack : t.slack = slack + 1) (hi : p.code[t.pc]? = some i)
    (he : { t with slack := slack }.execute env i = .threads ts)
    (h : ∀ u ∈ ts, (Choice.resume u).Sustained env p) : (Choice.resume t).Sustained env p := by
  refine .resume hslack hi fun c hc => ?_
  rw [he] at hc
  obtain ⟨u, hu, rfl⟩ := List.mem_map.mp hc
  exact h u hu

theorem thread {u : Thread} (hslack : t.slack = slack + 1) (hi : p.code[t.pc]? = some i)
    (he : { t with slack := slack }.execute env i = .threads [u])
    (h : (Choice.resume u).Sustained env p) : (Choice.resume t).Sustained env p :=
  threads hslack hi he fun _ hv => List.mem_singleton.mp hv ▸ h

theorem ends (hslack : t.slack = slack + 1) (hi : p.code[t.pc]? = some i)
    (he : ({ t with slack := slack }.execute env i).choices env = []) :
    (Choice.resume t).Sustained env p :=
  .resume hslack hi fun c hc => by
    rw [he] at hc
    cases hc

theorem leadsTo {c d : Choice} (h : c.LeadsTo env p d) (hc : c.Sustained env p) : d.Sustained env p := by
  cases h with
  | @runs t slack i _ hslack hi hd =>
    obtain ⟨hslack', hi', hnext⟩ := hc
    obtain rfl := Nat.succ.inj (hslack.symm.trans hslack')
    obtain rfl := Option.some.inj (hi.symm.trans hi')
    exact hnext d hd
  | crosses hmay =>
    cases hc with
    | extend hedges => exact hedges _ List.mem_cons_self hmay
  | skips =>
    cases hc with
    | extend hedges => exact .extend fun e he => hedges e (List.mem_cons_of_mem _ he)

end Choice.Sustained

/-! ## Single instructions -/

namespace Follows

variable {idle : Nat} {t : Thread} {slack : Nat}

theorem bind (hslack : t.slack = slack + 1) (name : Option String) (grouped : Bool) (x : ElementId) :
    Follows idle 1 1 t (({ t with slack := slack }.bind name grouped x).advance 1) := by
  obtain ⟨hpc, hloops, hframes, htaken⟩ := Thread.bind_keeps { t with slack := slack } name grouped x
  refine ⟨congrArg (· + 1) hpc, hloops, hframes, htaken, ?_, ?_, ?_, ?_⟩ <;> simp [hslack]

theorem cross {room : Nat} (hroom : t.room = room + 1) (slack : Nat) (pattern : EdgePattern)
    (grouped : Bool) (e : EdgeId) (v : VertexId) :
    Follows idle 1 1 t ({ t with slack := slack }.cross pattern grouped e v room idle) := by
  obtain ⟨hpc, hloops, hframes, htaken⟩ := Thread.bind_keeps
    { t with
      pc := t.pc + 1
      walk := t.walk.extend e v
      room := room
      slack := idle } pattern.filler.name grouped (.edge e)
  refine ⟨hpc, hloops, hframes, htaken, ?_, ?_, ?_, ?_⟩
  · simp only [Thread.walk_cross, Walk.length_extend, Thread.room_cross]
    omega
  · simp only [Thread.room_cross]
    omega
  · simp only [Thread.room_cross]
    omega
  · simp

end Follows

/-! ## Code that keeps threads going -/

/-- The code of the given length at a place keeps a thread going that may execute `cost` instructions. -/
def Sustains (env : Env) (p : Program) (pc length cost : Nat) : Prop :=
  ∀ t : Thread, t.pc = pc → (∀ b ∈ t.taken, b.depth ≤ t.loops.length) → cost ≤ t.slack →
    (∀ u, Follows p.idle length cost t u → (Choice.resume u).Sustained env p) →
    (Choice.resume t).Sustained env p

namespace Sustains

variable {env : Env} {p : Program} {pc l₁ l₂ c₁ c₂ : Nat}

theorem mono (h : Sustains env p pc l₁ c₁) (hc : c₁ ≤ c₂) : Sustains env p pc l₁ c₂ :=
  fun t hpc ht hs hk => h t hpc ht (Nat.le_trans hc hs) fun u hu => hk u (hu.mono rfl hc)

theorem nothing : Sustains env p pc 0 0 := fun t _ _ _ hk =>
  hk t ⟨rfl, rfl, rfl, ⟨[], by simp, by simp⟩, rfl, Nat.le_refl _, by simp, by simp⟩

theorem seq (h₁ : Sustains env p pc l₁ c₁) (h₂ : Sustains env p (pc + l₁) l₂ c₂)
    (hidle : c₁ + c₂ ≤ p.idle) : Sustains env p pc (l₁ + l₂) (c₁ + c₂) := by
  intro t hpc ht hs hk
  refine h₁ t hpc ht (by omega) fun u hu => ?_
  refine h₂ u (by rw [hu.pc, hpc]) (hu.settled ht) (hu.enough hs hidle) fun v hv => ?_
  exact hk v (hu.trans hv)

theorem node {f : NodePattern} {grouped : Bool} (h : Stands p pc [.node f grouped]) :
    Sustains env p pc 1 1 := by
  intro t hpc ht hs hk
  obtain ⟨slack, hslack⟩ : ∃ slack, t.slack = slack + 1 := ⟨t.slack - 1, by omega⟩
  have hi : p.code[t.pc]? = some (.node f grouped) := hpc ▸ h.head
  by_cases hadmits : f.admits env t.bindings grouped (t.takenBy? f.name) (.vertex t.walk.current) = true
  · exact .thread hslack hi (if_pos hadmits) (hk _ (.bind hslack ..))
  · refine .ends hslack hi ?_
    have he : { t with slack := slack }.execute env (.node f grouped) = .pruned := if_neg hadmits
    rw [he]
    rfl

theorem edge {pattern : EdgePattern} {grouped : Bool} (h : Stands p pc [.edge pattern grouped]) :
    Sustains env p pc 1 1 := by
  intro t hpc ht hs hk
  obtain ⟨slack, hslack⟩ : ∃ slack, t.slack = slack + 1 := ⟨t.slack - 1, by omega⟩
  have hi : p.code[t.pc]? = some (.edge pattern grouped) := hpc ▸ h.head
  cases hr : t.room with
  | zero =>
    refine .ends hslack hi ?_
    simp [Thread.execute, hr, Effect.choices]
  | succ room =>
    refine .resume hslack hi fun c hc => ?_
    simp only [Thread.execute, hr, Effect.choices, List.mem_singleton] at hc
    subst hc
    exact .extend fun edge _ _ => hk _ (.cross hr slack ..)

theorem group {name : Option String} {mode : Option PathMode} {body : PathExpr}
    {condition : Option Expr} {grouped : Bool}
    (h : Stands p pc ((Element.group name mode body condition).code grouped))
    (hbody : Sustains env p (pc + 1) (body.code grouped).length body.idleSteps)
    (hidle : 2 + body.idleSteps ≤ p.idle) :
    Sustains env p pc ((Element.group name mode body condition).code grouped).length
      (2 + body.idleSteps) := by
  intro t hpc ht hs hk
  rw [Element.code, List.cons_append] at h
  obtain ⟨slack, hslack⟩ : ∃ slack, t.slack = slack + 1 := ⟨t.slack - 1, by omega⟩
  set inner := { t with
    slack := slack
    frames := ⟨mode.getD .walk, t.walk.length⟩ :: t.frames }.advance 1 with hinner
  have hpc' : inner.pc = pc + 1 := congrArg (· + 1) hpc
  have hslack' : 1 + body.idleSteps ≤ inner.slack := by
    simp only [hinner, Thread.slack_advance]
    omega
  refine .thread hslack (hpc ▸ h.head) (u := inner) rfl (hbody inner hpc' ht (by omega) fun u hu => ?_)
  -- At the end of the body the group is the innermost frame again.
  have hframes : u.frames = ⟨mode.getD .walk, t.walk.length⟩ :: t.frames := hu.frames
  have hus : 1 ≤ u.slack := hu.enough (by omega) (by omega)
  obtain ⟨left, hleft⟩ : ∃ left, u.slack = left + 1 := ⟨u.slack - 1, by omega⟩
  have hclose : p.code[u.pc]? = some (.closeGroup name condition grouped) := by
    rw [hu.pc, hpc']
    exact h.tail.right.head
  cases hb : Thread.closeGroup? env u.bindings (u.walk.since t.walk.length).toPath name condition
      grouped with
  | none =>
    refine .ends hleft hclose ?_
    simp only [Thread.execute, Thread.executeCloseGroup, hframes, hb]
    rfl
  | some bindings =>
    have hexec : { u with slack := left }.execute env (.closeGroup name condition grouped) =
        .threads [{ u with slack := left, bindings := bindings, frames := t.frames }.advance 1] := by
      simp only [Thread.execute, Thread.executeCloseGroup, hframes, hb]
    have hinside := (Follows.advance
      { t with frames := ⟨mode.getD .walk, t.walk.length⟩ :: t.frames } hslack 1).trans hu
    have hout := (hinside.closed bindings).trans
      (Follows.advance { u with bindings := bindings, frames := t.frames } hleft 1)
    refine .thread hleft hclose hexec (hk _ (hout.mono ?_ (by omega)))
    simp only [Element.code, List.length_append, List.length_cons, List.length_nil]
    omega

theorem alternation {a b : List Inst}
    (h : Stands p pc (.split (a.length + 2) :: a ++ .jump (b.length + 1) :: b))
    (ha : Sustains env p (pc + 1) a.length c₁) (hb : Sustains env p (pc + a.length + 2) b.length c₂)
    (hidle : 2 + c₁ ≤ p.idle) : Sustains env p pc (a.length + b.length + 2) (2 + c₁ + c₂) := by
  intro t hpc ht hs hk
  rw [List.cons_append] at h
  obtain ⟨slack, hslack⟩ : ∃ slack, t.slack = slack + 1 := ⟨t.slack - 1, by omega⟩
  have hfirst : (Choice.resume ({ t with slack := slack }.advance 1)).Sustained env p := by
    refine ha _ (congrArg (· + 1) hpc) ht (by simp only [Thread.slack_advance]; omega) fun u hu => ?_
    have hus : 1 ≤ u.slack := hu.enough (by simp only [Thread.slack_advance]; omega) (by omega)
    obtain ⟨left, hleft⟩ : ∃ left, u.slack = left + 1 := ⟨u.slack - 1, by omega⟩
    have hupc : u.pc = pc + 1 + a.length := by rw [hu.pc]; simp [Thread.advance, hpc]
    have hout := ((Follows.advance t hslack 1).trans hu).trans
      (Follows.advance u hleft (b.length + 1))
    exact .thread hleft (hupc ▸ h.tail.right.head) rfl (hk _ (hout.mono (by omega) (by omega)))
  have hsecond : (Choice.resume ({ t with slack := slack }.advance (a.length + 2))).Sustained env p := by
    refine hb _ (by simp only [Thread.advance, hpc]; omega) ht
      (by simp only [Thread.slack_advance]; omega) fun u hu => ?_
    have hout := (Follows.advance t hslack (a.length + 2)).trans hu
    exact hk u (hout.mono (by omega) (by omega))
  refine .threads hslack (hpc ▸ h.head) rfl fun u hu => ?_
  simp only [List.mem_cons, List.not_mem_nil, or_false] at hu
  rcases hu with rfl | rfl
  · exact hfirst
  · exact hsecond

end Sustains

/-! ## Loops -/

/-- A loop stands at a place, around code that keeps threads going. -/
structure LoopLasts (env : Env) (p : Program) (pc length cost lower : Nat) (upper : Option Nat) :
    Prop where
  body : Sustains env p (pc + 1) length cost
  loop : p.code[pc]? = some (.loop lower upper (length + 2))
  again : p.code[pc + 1 + length]? = some (.again lower (length + 1))
  close : p.code[pc + (length + 2)]? = some .closeLoop
  idle : 3 + (lower + 2) * (cost + 2) ≤ p.idle

namespace LoopLasts

variable {env : Env} {p : Program} {pc length cost lower n : Nat} {upper : Option Nat} {t : Thread}
  {outer : List Loop}

theorem leave {l : Loop} (h : LoopLasts env p pc length cost lower upper)
    (hpc : t.pc = pc + (length + 2)) (hl : t.loops = l :: outer) (hs : 1 ≤ t.slack)
    (hk : ∀ u, Follows p.idle 1 1 { t with loops := outer } u → (Choice.resume u).Sustained env p) :
    (Choice.resume t).Sustained env p := by
  obtain ⟨slack, hslack⟩ : ∃ slack, t.slack = slack + 1 := ⟨t.slack - 1, by omega⟩
  have hexec : { t with slack := slack }.execute env .closeLoop =
      .threads [{ t with slack := slack, loops := outer }.advance 1] := by
    simp only [Thread.execute, hl]
    rfl
  exact .thread hslack (hpc ▸ h.close) hexec (hk _ (.advance { t with loops := outer } hslack 1))

/-- One repetition, back to the head of the loop. Unless it was owed, it has taken an edge. -/
theorem repetition (h : LoopLasts env p pc length cost lower upper) (hpc : t.pc = pc + 1)
    (hl : t.loops = ⟨n, t.walk.length⟩ :: outer) (ht : ∀ b ∈ t.taken, b.depth ≤ outer.length)
    (hs : cost + 1 ≤ t.slack)
    (hk : ∀ u, u.loops = ⟨n + 1, t.walk.length⟩ :: outer → (n < lower ∨ u.room < t.room) →
      Follows p.idle 0 (cost + 1) { t with pc := pc, loops := outer } { u with loops := outer } →
      (Choice.resume u).Sustained env p) :
    (Choice.resume t).Sustained env p := by
  have hidle := h.idle
  have hfirst : 1 * (cost + 2) ≤ (lower + 2) * (cost + 2) := Nat.mul_le_mul_right _ (by omega)
  refine h.body t hpc (fun b hb => by have := ht b hb; simp only [hl, List.length_cons]; omega)
    (by omega) fun u hu => ?_
  have hus : 1 ≤ u.slack := hu.enough hs (by omega)
  obtain ⟨left, hleft⟩ : ∃ left, u.slack = left + 1 := ⟨u.slack - 1, by omega⟩
  have hi : p.code[u.pc]? = some (.again lower (length + 1)) := by
    rw [hu.pc, hpc]
    exact h.again
  set head := { u with
    slack := left
    pc := u.pc - (length + 1)
    loops := ⟨n + 1, t.walk.length⟩ :: outer
    taken := t.taken } with hhead
  have hexec : { u with slack := left }.execute env (.again lower (length + 1)) =
      if lower < n + 1 ∧ u.walk.length = t.walk.length then .pruned else .threads [head] := by
    simp only [Thread.execute, Thread.executeAgain, hu.loops.trans hl, hhead, ← hu.forget hl ht]
  by_cases hend : lower < n + 1 ∧ u.walk.length = t.walk.length
  · refine .ends hleft hi ?_
    rw [hexec, if_pos hend]
    rfl
  · rw [if_neg hend] at hexec
    have hcount : n < lower ∨ u.room < t.room := by
      have hlimit := hu.limit
      have hroom := hu.room
      omega
    have hback := @Follows.back _ _ _ _ _ outer _ hu hleft (length + 1)
    rw [hpc, show pc + 1 + length - (length + 1) = pc by omega] at hback
    exact .thread hleft hi hexec (hk head rfl hcount hback)

/-- At the head of a loop a thread leaves or repeats once more, and may have a choice of the two. -/
theorem leaveOrRepeat {start slack : Nat} (h : LoopLasts env p pc length cost lower upper)
    (hpc : t.pc = pc) (hl : t.loops = ⟨n, start⟩ :: outer) (hslack : t.slack = slack + 1)
    (hleave : (Choice.resume ({ t with
      slack := slack
      loops := ⟨n, t.walk.length⟩ :: outer }.advance (length + 2))).Sustained env p)
    (hrepeat : (Choice.resume ({ t with
      slack := slack
      loops := ⟨n, t.walk.length⟩ :: outer }.advance 1)).Sustained env p) :
    (Choice.resume t).Sustained env p := by
  have hi : p.code[t.pc]? = some (.loop lower upper (length + 2)) := hpc ▸ h.loop
  by_cases hn : n < lower
  · refine .thread hslack hi ?_ hrepeat
    simp only [Thread.execute, Thread.executeLoop, hl, if_pos hn]
  · by_cases hu : upper = some n
    · refine .thread hslack hi ?_ hleave
      simp only [Thread.execute, Thread.executeLoop, hl, if_neg hn, if_pos hu]
    · set here := { t with slack := slack, loops := ⟨n, t.walk.length⟩ :: outer }
      have hexec : { t with slack := slack }.execute env (.loop lower upper (length + 2)) =
          .threads [here.advance (length + 2), here.advance 1] := by
        simp only [Thread.execute, Thread.executeLoop, hl, if_neg hn, if_neg hu]
        rfl
      refine .threads hslack hi hexec fun u hmem => ?_
      simp only [List.mem_cons, List.not_mem_nil, or_false] at hmem
      rcases hmem with rfl | rfl
      · exact hleave
      · exact hrepeat

/-- The head of a loop, after `n` repetitions. Every repetition that is still owed may take no edge, and
so may one more, which is then dropped. -/
theorem head (h : LoopLasts env p pc length cost lower upper) (n start : Nat) (t : Thread)
    (hpc : t.pc = pc) (hl : t.loops = ⟨n, start⟩ :: outer) (ht : ∀ b ∈ t.taken, b.depth ≤ outer.length)
    (hs : (lower - n + 1) * (cost + 2) + 2 ≤ t.slack)
    (hk : ∀ u, Follows p.idle (length + 3) ((lower + 2) * (cost + 2) + 2) { t with loops := outer } u →
      (u.room = t.room → t.slack ≤ u.slack + ((lower - n + 1) * (cost + 2) + 2)) →
      (Choice.resume u).Sustained env p) :
    (Choice.resume t).Sustained env p := by
  obtain ⟨slack, hslack⟩ : ∃ slack, t.slack = slack + 1 := ⟨t.slack - 1, by omega⟩
  have hidle := h.idle
  have hmost : (lower - n + 1) * (cost + 2) ≤ (lower + 2) * (cost + 2) := owed_le
  have hfirst : 1 * (cost + 2) ≤ (lower - n + 1) * (cost + 2) := Nat.mul_le_mul_right _ (by omega)
  set here := { t with slack := slack, loops := ⟨n, t.walk.length⟩ :: outer } with hhere
  have hleave : (Choice.resume (here.advance (length + 2))).Sustained env p := by
    refine h.leave (by simp [hhere, Thread.advance, hpc]) rfl
      (by simp only [hhere, Thread.slack_advance]; omega) fun u hu => ?_
    have hall := (Follows.advance { t with loops := outer } hslack (length + 2)).trans hu
    exact hk u (hall.mono rfl (by omega)) fun hr => Nat.le_trans (hall.near hr) (by omega)
  have henter : (Choice.resume (here.advance 1)).Sustained env p := by
    refine h.repetition (by simp [hhere, Thread.advance, hpc]) rfl ht
      (by simp only [hhere, Thread.slack_advance]; omega) fun u hul hcount hu => ?_
    have hroom : u.room ≤ t.room := hu.room
    have hnear : u.room = t.room → slack ≤ u.slack + (cost + 1) := hu.near
    have hfar : u.room < t.room → p.idle ≤ u.slack + (cost + 1) := hu.far
    have howed : (lower - (n + 1) + 1) * (cost + 2) + (cost + 2) ≤ (lower + 2) * (cost + 2) :=
      owed_succ_le
    -- Without an edge, the repetition was owed.
    have hstep (hr : u.room = t.room) :
        (lower - n + 1) * (cost + 2) = (lower - (n + 1) + 1) * (cost + 2) + (cost + 2) :=
      owed_of_lt (hcount.resolve_right (by simp only [hhere, Thread.room_advance]; omega))
    have hus : (lower - (n + 1) + 1) * (cost + 2) + 2 ≤ u.slack := by
      rcases Nat.lt_or_eq_of_le hroom with hr | hr
      · have := hfar hr
        omega
      · have := hnear hr
        have := hstep hr
        omega
    have hdecreases : lower - (n + 1) < lower - n ∨
        lower - (n + 1) = lower - n ∧ u.room < t.room := by
      rcases Nat.lt_or_ge n lower with hn | hn
      · exact .inl (by omega)
      · exact .inr ⟨by omega, hcount.resolve_left (by omega)⟩
    refine h.head (n + 1) t.walk.length u hu.pc hul (hu.settled ht) hus fun v hv hvnear => ?_
    have hvu : v.room ≤ u.room := hv.room
    have key (hr : v.room = t.room) : t.slack ≤ v.slack + ((lower - n + 1) * (cost + 2) + 2) := by
      have := hnear (by omega)
      have := hvnear (by omega)
      have := hstep (by omega)
      omega
    have hless (hr : v.room = t.room) : slack ≤ v.slack + ((lower + 2) * (cost + 2) + 2) := by
      have := key hr
      omega
    have hrest := hu.chain hv (Nat.le_refl _) hless fun hr hvu => by
        have := hfar hr
        have := hvnear hvu
        omega
    have hmore (hr : v.room = t.room) : t.slack ≤ v.slack + ((lower + 2) * (cost + 2) + 2) := by
      have := key hr
      omega
    have hopen : Follows p.idle 0 1 { t with loops := outer }
        { here.advance 1 with pc := pc, loops := outer } := by
      subst hpc
      exact .advance { t with loops := outer } hslack 0
    have hall := hopen.chain hrest (Nat.le_refl _) hmore fun hr => absurd hr (Nat.lt_irrefl _)
    exact hk v (hall.mono (by omega) (Nat.le_refl _)) key
  exact h.leaveOrRepeat hpc hl hslack hleave henter
termination_by (lower - n, t.room)
decreasing_by
  rcases hdecreases with hd | ⟨hd, hr⟩
  · exact .left _ _ hd
  · rw [hd]
    exact .right _ hr

end LoopLasts

theorem Sustains.quantified {env : Env} {p : Program} {pc : Nat} {e : Element} {q : Quantifier}
    {grouped : Bool} (h : Stands p pc ((Factor.mk e (some q)).code grouped))
    (hbody : Sustains env p (pc + 2) (e.code true).length e.idleSteps)
    (hidle : (Factor.mk e (some q)).idleSteps ≤ p.idle) :
    Sustains env p pc ((Factor.mk e (some q)).code grouped).length
      (Factor.mk e (some q)).idleSteps := by
  intro t hpc ht hs hk
  simp only [Factor.code, Factor.idleSteps, List.cons_append] at h hidle hs hk ⊢
  obtain ⟨slack, hslack⟩ : ∃ slack, t.slack = slack + 1 := ⟨t.slack - 1, by omega⟩
  have hagain := h.tail.tail.right
  have hloop : LoopLasts env p (pc + 1) (e.code true).length e.idleSteps q.lower q.upper := by
    refine ⟨hbody, h.tail.head, hagain.head, ?_, hidle⟩
    rw [show pc + 1 + ((e.code true).length + 2) = pc + 1 + 1 + (e.code true).length + 1 by omega]
    exact hagain.tail.head
  set head := { t with slack := slack, loops := ⟨0, t.walk.length⟩ :: t.loops }.advance 1 with hhead
  have hsucc : (q.lower + 2) * (e.idleSteps + 2) =
      (q.lower + 1) * (e.idleSteps + 2) + (e.idleSteps + 2) := Nat.succ_mul _ _
  refine .thread hslack (hpc ▸ h.head) (u := head) rfl ?_
  refine hloop.head 0 t.walk.length head (congrArg (· + 1) hpc) rfl ht
    (by simp only [hhead, Thread.slack_advance, Nat.sub_zero]; omega) fun u hu _ => ?_
  have hall := (Follows.advance t hslack 1).trans hu
  refine hk u (hall.mono ?_ (by omega))
  simp only [List.length_cons, List.length_append, List.length_nil]
  omega

/-! ## The code of a pattern -/

section Code

variable {env : Env} {p : Program}

mutual

theorem PathExpr.sustains : ∀ (x : PathExpr) (grouped : Bool) (pc : Nat),
    Stands p pc (x.code grouped) → x.idleSteps ≤ p.idle →
    Sustains env p pc (x.code grouped).length x.idleSteps
  | .term factors, grouped, pc, h, hidle => by
    simp only [PathExpr.code, PathExpr.idleSteps] at h hidle ⊢
    exact term_sustains factors grouped pc h hidle
  | .union terms, grouped, pc, h, hidle => by
    simp only [PathExpr.code, PathExpr.idleSteps] at h hidle ⊢
    exact choice_sustains terms grouped pc h hidle
  | .multiset terms, grouped, pc, h, hidle => by
    simp only [PathExpr.code, PathExpr.idleSteps] at h hidle ⊢
    exact choice_sustains terms grouped pc h hidle

theorem choice_sustains : ∀ (terms : List (List Factor)) (grouped : Bool) (pc : Nat),
    Stands p pc (choiceCode grouped terms) → choiceIdleSteps terms ≤ p.idle →
    Sustains env p pc (choiceCode grouped terms).length (choiceIdleSteps terms)
  | [], grouped, pc, h, hidle => Sustains.nothing
  | [t], grouped, pc, h, hidle => by
    simp only [choiceCode, choiceIdleSteps, List.isEmpty_nil, if_true] at h hidle ⊢
    exact (term_sustains t grouped pc h (by omega)).mono (by omega)
  | t :: t' :: rest, grouped, pc, h, hidle => by
    rw [choiceIdleSteps] at hidle ⊢
    rw [choiceCode] at h ⊢
    simp only [List.isEmpty_cons, Bool.false_eq_true, if_false] at h ⊢
    have hfirst := term_sustains t grouped (pc + 1) h.tail.left (by omega)
    have hothers := choice_sustains (t' :: rest) grouped (pc + (termCode grouped t).length + 2)
      (by
        have := h.tail.right.tail
        rwa [show pc + 1 + (termCode grouped t).length + 1 =
          pc + (termCode grouped t).length + 2 by omega] at this) (by omega)
    have hlength : (.split ((termCode grouped t).length + 2) :: termCode grouped t ++
        .jump ((choiceCode grouped (t' :: rest)).length + 1) ::
          choiceCode grouped (t' :: rest)).length =
        (termCode grouped t).length + (choiceCode grouped (t' :: rest)).length + 2 := by
      simp only [List.length_append, List.length_cons]
      omega
    rw [hlength]
    exact Sustains.alternation h hfirst hothers (by omega)

theorem term_sustains : ∀ (factors : List Factor) (grouped : Bool) (pc : Nat),
    Stands p pc (termCode grouped factors) → termIdleSteps factors ≤ p.idle →
    Sustains env p pc (termCode grouped factors).length (termIdleSteps factors)
  | [], grouped, pc, h, hidle => Sustains.nothing
  | f :: rest, grouped, pc, h, hidle => by
    rw [termIdleSteps] at hidle ⊢
    rw [termCode] at h ⊢
    rw [List.length_append]
    have hfirst := f.sustains grouped pc h.left (by omega)
    have hrest := term_sustains rest grouped _ h.right (by omega)
    exact hfirst.seq hrest hidle

theorem Factor.sustains : ∀ (f : Factor) (grouped : Bool) (pc : Nat),
    Stands p pc (f.code grouped) → f.idleSteps ≤ p.idle →
    Sustains env p pc (f.code grouped).length f.idleSteps
  | .mk e none, grouped, pc, h, hidle => by
    simp only [Factor.code, Factor.idleSteps] at h hidle ⊢
    exact e.sustains grouped pc h hidle
  | .mk e (some q), grouped, pc, h, hidle => by
    refine Sustains.quantified h ?_ hidle
    simp only [Factor.code, Factor.idleSteps, List.cons_append] at h hidle
    refine e.sustains true (pc + 2) h.tail.tail.left ?_
    have : 1 * (e.idleSteps + 2) ≤ (q.lower + 2) * (e.idleSteps + 2) :=
      Nat.mul_le_mul_right _ (by omega)
    omega

theorem Element.sustains : ∀ (e : Element) (grouped : Bool) (pc : Nat),
    Stands p pc (e.code grouped) → e.idleSteps ≤ p.idle →
    Sustains env p pc (e.code grouped).length e.idleSteps
  | .node f, grouped, pc, h, hidle => by
    simp only [Element.code, Element.idleSteps] at h ⊢
    exact Sustains.node h
  | .edge pattern, grouped, pc, h, hidle => by
    simp only [Element.code, Element.idleSteps] at h ⊢
    exact Sustains.edge h
  | .group name mode body condition, grouped, pc, h, hidle => by
    rw [Element.idleSteps] at hidle ⊢
    refine Sustains.group h ?_ hidle
    rw [Element.code, List.cons_append] at h
    exact body.sustains grouped (pc + 1) h.tail.left (by omega)

end

end Code

/-- A program whose threads never stop for want of slack. -/
def Program.IsSustained (env : Env) (p : Program) : Prop :=
  ∀ (v : VertexId) (base : Bindings) (limit : Nat),
    (Choice.resume (.start v base limit p.idle)).Sustained env p

/-- **The slack of a thread is never used up**, in the program of any path pattern. -/
theorem PathPattern.isSustained (p : PathPattern) (env : Env) :
    (Program.compile p).IsSustained env := by
  intro v base limit
  have hcode : Stands (.compile p) 0 (p.expr.code false ++ [.accept]) := List.prefix_refl _
  have hexpr : Sustains env (.compile p) 0 (p.expr.code false).length p.expr.idleSteps :=
    p.expr.sustains false 0 hcode.left (Nat.le_succ _)
  refine hexpr (.start v base limit (Program.compile p).idle) rfl (fun b hb => by cases hb)
    (Nat.le_succ _) fun u hu => ?_
  have hus : 1 ≤ u.slack := hu.enough (Nat.le_refl _) (Nat.le_refl _)
  obtain ⟨left, hleft⟩ : ∃ left, u.slack = left + 1 := ⟨u.slack - 1, by omega⟩
  have haccept : (Program.compile p).code[u.pc]? = some .accept := by
    rw [hu.pc]
    exact hcode.right.head
  exact .ends hleft haccept rfl

end GraphPatterns
