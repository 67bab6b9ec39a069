/-
The code of a quantifier. A loop counts its repetitions on a stack of its own and drops a repetition
beyond the lower bound that took no edge; `LoopStands.repeats` says that its head, after `n`
repetitions, does what `repetitions` says, by the recursion of `repetitions` itself. Repetitions that
take no edge are bounded by the lower bound, which is why the slack of a thread is never used up.
-/
import GraphPatterns.Proofs.Simulation

namespace GraphPatterns

namespace Choice

variable {env : Env} {p : Program} {t : Thread} {slack lower n start : Nat} {outer : List Loop}

/-- The head of a loop leads out of the loop, and then into another repetition, as far as the bounds
allow the one and the other. -/
theorem stages_loop {upper : Option Nat} {ahead : Nat} (hs : t.slack = slack + 1)
    (hi : p.code[t.pc]? = some (.loop lower upper ahead)) (hl : t.loops = ⟨n, start⟩ :: outer) :
    let head := { t with slack := slack, loops := ⟨n, t.walk.length⟩ :: outer }
    (Choice.resume t).stages env p =
      (if n < lower then [] else (Choice.resume (head.advance ahead)).stages env p) ++
        (if lower ≤ n ∧ upper = some n then []
        else (Choice.resume (head.advance 1)).stages env p) := by
  intro head
  have hexec : { t with slack := slack }.execute env (.loop lower upper ahead) =
      if n < lower then .threads [head.advance 1]
      else if upper = some n then .threads [head.advance ahead]
      else .threads [head.advance ahead, head.advance 1] := by
    simp only [Thread.execute, Thread.executeLoop, hl]
    rfl
  by_cases hn : n < lower
  · rw [if_pos hn] at hexec ⊢
    rw [stages_thread hs hi hexec, if_neg (by omega), List.nil_append]
  · rw [if_neg hn] at hexec ⊢
    by_cases hu : upper = some n
    · rw [if_pos hu] at hexec
      rw [stages_thread hs hi hexec, if_pos ⟨by omega, hu⟩, List.append_nil]
    · rw [if_neg hu] at hexec
      rw [stages_threads hs hi hexec, List.flatMap_cons, List.flatMap_singleton,
        if_neg fun hc => hu hc.2]

/-- The end of a repetition leads back to the head of its loop, unless the repetition is not owed and
took no edge. -/
theorem stages_again {back : Nat} (hs : t.slack = slack + 1)
    (hi : p.code[t.pc]? = some (.again lower back)) (hl : t.loops = ⟨n, start⟩ :: outer) :
    (Choice.resume t).stages env p =
      if n < lower ∨ t.walk.length ≠ start then
        (Choice.resume { t with
          slack := slack
          pc := t.pc - back
          loops := ⟨n + 1, start⟩ :: outer
          taken := t.taken.filter (·.depth < t.loops.length) }).stages env p
      else [] := by
  have hexec : { t with slack := slack }.execute env (.again lower back) =
      if lower < n + 1 ∧ t.walk.length = start then .pruned
      else .threads [{ t with
        slack := slack
        pc := t.pc - back
        loops := ⟨n + 1, start⟩ :: outer
        taken := t.taken.filter (·.depth < t.loops.length) }] := by
    simp only [Thread.execute, Thread.executeAgain, hl]
  split
  · next hc => exact stages_thread hs hi (hexec.trans (if_neg (by omega)))
  · next hc => exact stages_pruned hs hi (hexec.trans (if_pos (by omega)))

end Choice

namespace Follows

variable {idle length cost : Nat} {t u : Thread} {outer : List Loop}

theorem forget {l : Loop} (h : Follows idle length cost t u) (hl : t.loops = l :: outer)
    (ht : ∀ b ∈ t.taken, b.depth ≤ outer.length) :
    u.taken.filter (·.depth < u.loops.length) = t.taken := by
  obtain ⟨new, hnew, hd⟩ := h.taken
  rw [hnew, List.filter_append, List.filter_eq_self.mpr, List.filter_eq_nil_iff.mpr,
    List.append_nil]
  · intro b hb
    simp [hd b hb, h.loops, hl]
  · intro b hb
    have := ht b hb
    simp only [h.loops, hl, List.length_cons, decide_eq_true_eq]
    omega

/-- From the end of a repetition back to the head of the loop, as the code around the loop sees it. -/
theorem back {left : Nat} (h : Follows idle length cost t u) (hs : u.slack = left + 1)
    (back : Nat) :
    Follows idle 0 (cost + 1) { t with pc := t.pc + length - back, loops := outer }
      { u with slack := left, pc := u.pc - back, loops := outer, taken := t.taken } where
  pc := by simp [h.pc]
  loops := rfl
  frames := h.frames
  taken := ⟨[], by simp, by simp⟩
  limit := h.limit
  room := h.room
  near hr := by
    have := h.near hr
    simp only
    omega
  far hr := by
    have := h.far hr
    simp only
    omega

end Follows

/-- One repetition: the body, then the end of the repetition, where the loop counts it. Unless a
repetition is still owed, it has to have taken an edge. -/
theorem Implements.repetition {p : Program} {c : Surroundings} {pc lower n length cost back : Nat}
    {body k : Stage → List Stage} {outer : List Loop} {t : Thread}
    (hbody : Implements p c pc length cost body)
    (hagain : p.code[pc + length]? = some (.again lower back)) (hidle : cost + 1 ≤ p.idle)
    (hpc : t.pc = pc) (hf : t.frames = c.frames) (hl : t.loops = ⟨n, t.walk.length⟩ :: outer)
    (ht : ∀ b ∈ t.taken, b.depth ≤ outer.length) (hs : cost + 1 ≤ t.slack)
    (hk : ∀ u, ∀ s ∈ body t.stage, (n < lower ∨ s.room < t.room) →
      u.stage = { s with taken := t.stage.taken } → u.loops = ⟨n + 1, t.walk.length⟩ :: outer →
      Follows p.idle 0 (cost + 1) { t with pc := pc + length - back, loops := outer }
        { u with loops := outer } →
      (Choice.resume u).stages c.env p = k u.stage) :
    (Choice.resume t).stages c.env p = (body t.stage).flatMap fun s =>
      if n < lower ∨ s.room < t.room then k { s with taken := t.stage.taken } else [] := by
  subst hpc
  refine hbody t _ rfl hf (fun b hb => by have := ht b hb; simp only [hl, List.length_cons]; omega)
    (by omega) fun u hu hmem => ?_
  have hus : 1 ≤ u.slack := hu.enough hs hidle
  obtain ⟨left, hleft⟩ : ∃ left, u.slack = left + 1 := ⟨u.slack - 1, by omega⟩
  rw [Choice.stages_again hleft (hu.pc ▸ hagain) (hu.loops.trans hl), hu.forget hl ht]
  -- The walk has grown exactly if there is less room than before.
  have hcross : u.walk.length ≠ t.walk.length ↔ u.stage.room < t.room := by
    have hlimit := hu.limit
    have hroom := hu.room
    have : u.stage.room = u.room := rfl
    omega
  simp only [hcross]
  split
  · next hcount => exact hk _ u.stage hmem hcount rfl rfl (hu.back hleft back)
  · rfl

/-! ## Loops -/

section Loops

variable (p : Program) (c : Surroundings) (pc length cost lower : Nat) (upper : Option Nat)
  (body : Stage → List Stage)

/-- The head of a loop does what is to be done after `n` repetitions. Every repetition that is still
owed may take no edge, and so may one more, which is then dropped. -/
def Repeats (n : Nat) (s : Stage) : Prop :=
  ∀ (t : Thread) (start : Nat) (outer : List Loop) (k : Stage → List Stage), t.stage = s →
    t.pc = pc → t.frames = c.frames → t.loops = ⟨n, start⟩ :: outer →
    (∀ b ∈ t.taken, b.depth ≤ outer.length) → (lower - n + 1) * (cost + 2) + 2 ≤ t.slack →
    (∀ u, Follows p.idle (length + 3) ((lower + 2) * (cost + 2) + 2) { t with loops := outer } u →
      (u.room = t.room → t.slack ≤ u.slack + ((lower - n + 1) * (cost + 2) + 2)) →
      u.stage ∈ repetitions body lower upper n s →
      (Choice.resume u).stages c.env p = k u.stage) →
    (Choice.resume t).stages c.env p = (repetitions body lower upper n s).flatMap k

/-- A loop stands at a place, around code that implements its body. -/
structure LoopStands : Prop where
  body : Implements p c (pc + 1) length cost body
  loop : p.code[pc]? = some (.loop lower upper (length + 2))
  again : p.code[pc + 1 + length]? = some (.again lower (length + 1))
  close : p.code[pc + (length + 2)]? = some .closeLoop
  idle : 3 + (lower + 2) * (cost + 2) ≤ p.idle

variable {p c pc length cost lower upper body} {n : Nat} {t : Thread} {outer : List Loop}
  {k : Stage → List Stage}

/-- What the repetitions that are owed may execute, with the one that takes no edge. -/
theorem owed_le : (lower - n + 1) * (cost + 2) ≤ (lower + 2) * (cost + 2) :=
  Nat.mul_le_mul_right _ (by omega)

theorem owed_succ_le :
    (lower - (n + 1) + 1) * (cost + 2) + (cost + 2) ≤ (lower + 2) * (cost + 2) := by
  rw [← Nat.succ_mul]
  exact Nat.mul_le_mul_right _ (by omega)

theorem owed_of_lt (hn : n < lower) :
    (lower - n + 1) * (cost + 2) = (lower - (n + 1) + 1) * (cost + 2) + (cost + 2) := by
  rw [← Nat.succ_mul]
  congr 1
  omega

theorem LoopStands.enter (h : LoopStands p c pc length cost lower upper body)
    (ih : ∀ s ∈ body t.stage, n < lower ∨ s.room < t.room →
      Repeats p c pc length cost lower upper body (n + 1) { s with taken := t.stage.taken })
    (hpc : t.pc = pc + 1) (hf : t.frames = c.frames) (hl : t.loops = ⟨n, t.walk.length⟩ :: outer)
    (ht : ∀ b ∈ t.taken, b.depth ≤ outer.length)
    (hs : (lower - n + 1) * (cost + 2) + 1 ≤ t.slack)
    (hk : ∀ u, Follows p.idle (length + 2) ((lower + 2) * (cost + 2) + 2) { t with loops := outer } u →
      (u.room = t.room → t.slack ≤ u.slack + ((lower - n + 1) * (cost + 2) + 1)) →
      (∃ s ∈ body t.stage, (n < lower ∨ s.room < t.room) ∧
        u.stage ∈ repetitions body lower upper (n + 1) { s with taken := t.stage.taken }) →
      (Choice.resume u).stages c.env p = k u.stage) :
    (Choice.resume t).stages c.env p = (body t.stage).flatMap fun s =>
      if n < lower ∨ s.room < t.room then
        (repetitions body lower upper (n + 1) { s with taken := t.stage.taken }).flatMap k
      else [] := by
  have hidle := h.idle
  have hfirst : 1 * (cost + 2) ≤ (lower - n + 1) * (cost + 2) := Nat.mul_le_mul_right _ (by omega)
  have hmost : (lower - n + 1) * (cost + 2) ≤ (lower + 2) * (cost + 2) := owed_le
  have howed : (lower - (n + 1) + 1) * (cost + 2) + (cost + 2) ≤ (lower + 2) * (cost + 2) :=
    owed_succ_le
  refine Implements.repetition (k := fun s => (repetitions body lower upper (n + 1) s).flatMap k)
    h.body h.again (by omega) hpc hf hl ht (by omega) fun u s hmem hcount hstage hul hu => ?_
  have hsr : s.room = u.room := (congrArg Stage.room hstage).symm
  have hnear : u.room = t.room → t.slack ≤ u.slack + (cost + 1) := hu.near
  have hfar : u.room < t.room → p.idle ≤ u.slack + (cost + 1) := hu.far
  have hback : pc + 1 + length - (length + 1) = pc := by omega
  -- Without an edge, the repetition was owed.
  have hstep (hr : u.room = t.room) :
      (lower - n + 1) * (cost + 2) = (lower - (n + 1) + 1) * (cost + 2) + (cost + 2) :=
    owed_of_lt (hcount.resolve_right (by omega))
  have hslack : (lower - (n + 1) + 1) * (cost + 2) + 2 ≤ u.slack := by
    rcases Nat.lt_or_eq_of_le hu.room with hr | hr
    · have := hfar hr
      omega
    · have := hnear hr
      have := hstep hr
      omega
  rw [hstage]
  refine ih s hmem hcount u t.walk.length outer k hstage (hu.pc.trans hback) (hu.frames.trans hf)
    hul (hu.settled ht) hslack fun v hv hvnear hvmem => ?_
  have key (hr : v.room = t.room) : t.slack ≤ v.slack + ((lower - n + 1) * (cost + 2) + 1) := by
    have hvu : v.room ≤ u.room := hv.room
    have hut : u.room ≤ t.room := hu.room
    have := hnear (by omega)
    have := hvnear (by omega)
    have := hstep (by omega)
    omega
  have hall := hu.chain hv (Nat.le_refl _) (fun hr => Nat.le_trans (key hr) (by omega))
    fun hr hvu => by
      have := hfar hr
      have := hvnear hvu
      omega
  have hvpc : v.pc = t.pc + (length + 2) := by
    have hpc' : v.pc = pc + 1 + length - (length + 1) + (0 + (length + 3)) := hall.pc
    omega
  exact hk v { hall with pc := hvpc } key ⟨s, hmem, hcount, hvmem⟩

theorem LoopStands.leave {start : Nat} (h : LoopStands p c pc length cost lower upper body)
    (hpc : t.pc = pc + (length + 2)) (hl : t.loops = ⟨n, start⟩ :: outer) (hs : 1 ≤ t.slack)
    (hk : ∀ u, Follows p.idle 1 1 { t with loops := outer } u → u.stage = t.stage →
      (Choice.resume u).stages c.env p = k u.stage) :
    (Choice.resume t).stages c.env p = k t.stage := by
  obtain ⟨slack, hslack⟩ : ∃ slack, t.slack = slack + 1 := ⟨t.slack - 1, by omega⟩
  have hexec : { t with slack := slack }.execute c.env .closeLoop =
      .threads [{ t with slack := slack, loops := outer }.advance 1] := by
    simp only [Thread.execute, hl]
    rfl
  rw [Choice.stages_thread hslack (hpc ▸ h.close) hexec]
  exact hk _ (Follows.advance { t with loops := outer } hslack 1) rfl

/-- What the head of a loop does, from what it does after one repetition more. -/
theorem LoopStands.repeats_step {s : Stage} (h : LoopStands p c pc length cost lower upper body)
    (ih : ∀ u : Stage, (n < lower ∨ upper ≠ some n ∧ u.room < s.room) →
      Repeats p c pc length cost lower upper body (n + 1) { u with taken := s.taken }) :
    Repeats p c pc length cost lower upper body n s := by
  rintro t start outer k rfl hpc hf hl ht hs hk
  obtain ⟨slack, hslack⟩ : ∃ slack, t.slack = slack + 1 := ⟨t.slack - 1, by omega⟩
  have hmost : (lower - n + 1) * (cost + 2) ≤ (lower + 2) * (cost + 2) := owed_le
  have hi : p.code[t.pc]? = some (.loop lower upper (length + 2)) := hpc ▸ h.loop
  rw [Choice.stages_loop hslack hi hl, repetitions_eq, List.flatMap_append]
  rw [repetitions_eq] at hk
  set head := { t with slack := slack, loops := ⟨n, t.walk.length⟩ :: outer } with hhead
  congr 1
  · split
    · rfl
    · next hn =>
      rw [List.flatMap_singleton]
      refine h.leave (t := head.advance (length + 2)) (by simp [hhead, Thread.advance, hpc]) rfl
        (by simp only [hhead, Thread.slack_advance]; omega) fun u hu hus => ?_
      have hall := (Follows.advance { t with loops := outer } hslack (length + 2)).trans hu
      refine hk u (hall.mono rfl (by omega)) (fun hr => Nat.le_trans (hall.near hr) (by omega)) ?_
      rw [hus, if_neg hn]
      exact List.mem_append_left _ (List.mem_singleton_self _)
  · split
    · rfl
    · next hgo =>
      have owed (s : Stage) (hc : n < lower ∨ s.room < t.room) :
          n < lower ∨ upper ≠ some n ∧ s.room < t.stage.room := by
        rcases Nat.lt_or_ge n lower with hn | hn
        · exact .inl hn
        · exact .inr ⟨fun hu => hgo ⟨hn, hu⟩, hc.resolve_left (by omega)⟩
      have henter : (Choice.resume (head.advance 1)).stages c.env p =
          (body t.stage).flatMap fun s =>
            if n < lower ∨ s.room < t.stage.room then
              (repetitions body lower upper (n + 1) { s with taken := t.stage.taken }).flatMap k
            else [] := by
        refine h.enter (t := head.advance 1) (fun s _ hc => ih s (owed s hc))
          (by simp [hhead, Thread.advance, hpc]) hf rfl ht
          (by simp only [hhead, Thread.slack_advance]; omega) fun u hu hunear hway => ?_
        obtain ⟨s, hs, hc, hmem⟩ := hway
        have key (hr : u.room = t.room) : t.slack ≤ u.slack + ((lower - n + 1) * (cost + 2) + 2) := by
          have : slack ≤ u.slack + ((lower - n + 1) * (cost + 2) + 1) := hunear hr
          omega
        have hall := (Follows.advance { t with loops := outer } hslack 1).chain hu (Nat.le_refl _)
          (fun hr => Nat.le_trans (key hr) (by omega)) fun hr => absurd hr (Nat.lt_irrefl _)
        refine hk u (hall.mono (by omega) (Nat.le_refl _)) key ?_
        have hc' : n < lower ∨ s.room < t.stage.room := hc
        rw [if_neg hgo]
        refine List.mem_append_right _ (List.mem_flatMap.mpr ⟨s, hs, ?_⟩)
        rw [if_pos hc']
        exact hmem
      rw [henter, List.flatMap_assoc]
      refine List.flatMap_congr fun s _ => ?_
      split <;> simp

theorem LoopStands.repeats (h : LoopStands p c pc length cost lower upper body) (n : Nat)
    (s : Stage) : Repeats p c pc length cost lower upper body n s := by
  induction n, s using repetitions.induct lower upper with
  | case1 n s hn ih => exact h.repeats_step fun u _ => ih u
  | case2 n s hn hu => exact h.repeats_step fun u hc => absurd hc (by simp [hn, hu])
  | case3 n s hn hu ih =>
    exact h.repeats_step fun u hc => ih u (hc.elim (fun hn' => absurd hn' hn) And.right)

end Loops

theorem Implements.quantified {p : Program} {c : Surroundings} {pc : Nat} {e : Element}
    {q : Quantifier} (h : Stands p pc ((Factor.mk e (some q)).code c.repeated))
    (hbody : Implements p { c with repeated := true } (pc + 2) (e.code true).length e.idleSteps
      (e.ways { c with repeated := true }))
    (hidle : (Factor.mk e (some q)).idleSteps ≤ p.idle) :
    Implements p c pc ((Factor.mk e (some q)).code c.repeated).length
      (Factor.mk e (some q)).idleSteps ((Factor.mk e (some q)).ways c) := by
  intro t k hpc hf ht hs hk
  simp only [Factor.code, Factor.idleSteps, Factor.ways, List.cons_append] at h hidle hs hk ⊢
  obtain ⟨slack, hslack⟩ : ∃ slack, t.slack = slack + 1 := ⟨t.slack - 1, by omega⟩
  have hagain := h.tail.tail.right
  have hloop : LoopStands p { c with repeated := true } (pc + 1) (e.code true).length e.idleSteps
      q.lower q.upper (e.ways { c with repeated := true }) := by
    refine ⟨hbody, h.tail.head, hagain.head, ?_, hidle⟩
    rw [show pc + 1 + ((e.code true).length + 2) = pc + 1 + 1 + (e.code true).length + 1 by omega]
    exact hagain.tail.head
  set head := { t with slack := slack, loops := ⟨0, t.walk.length⟩ :: t.loops }.advance 1 with hhead
  have hopen : { t with slack := slack }.execute c.env .openLoop = .threads [head] := rfl
  have hsucc : (q.lower + 2) * (e.idleSteps + 2) =
      (q.lower + 1) * (e.idleSteps + 2) + (e.idleSteps + 2) := Nat.succ_mul _ _
  rw [Choice.stages_thread hslack (hpc ▸ h.head) hopen]
  refine hloop.repeats 0 t.stage head t.walk.length t.loops k rfl (congrArg (· + 1) hpc) hf rfl ht
    (by simp only [hhead, Thread.slack_advance, Nat.sub_zero]; omega) fun u hu _ hmem => ?_
  have hall := (Follows.advance t hslack 1).trans hu
  refine hk u (hall.mono ?_ (by omega)) hmem
  simp only [List.length_cons, List.length_append, List.length_nil]
  omega

end GraphPatterns
