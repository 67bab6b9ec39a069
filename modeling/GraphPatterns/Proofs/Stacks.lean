/-
The stacks of a thread follow its place in the program. A thread at a spot has a loop on its stack for
each loop around the place, and a group for each group (`Thread.Stacked`); every instruction leads from
there to a place where it is so again (`IsPlaced.execute`). So no instruction finds a stack empty that it
takes something from, and at the end of the program both are (`PathPattern.stacks_reached`).
-/
import GraphPatterns.Proofs.Refinement
import GraphPatterns.Proofs.Slack
import GraphPatterns.Proofs.Spots
import GraphPatterns.Proofs.Walks

namespace GraphPatterns

/-- Outside the loops that are between two repetitions, all loops are running. -/
theorem countP_isLoop {around : List Enclosure} (h : .loop false ∉ around) :
    around.countP Enclosure.isLoop = around.countP Enclosure.isRunning := by
  refine List.countP_congr fun x hx => ?_
  cases x with
  | loop running =>
    cases running with
    | true => rfl
    | false => exact absurd hx h
  | group mode => rfl

theorem countP_isRunning_le (around : List Enclosure) :
    around.countP Enclosure.isRunning ≤ around.countP Enclosure.isLoop :=
  List.countP_mono_left fun x _ hx => by
    cases x with
    | loop running => rfl
    | group mode => cases hx

/-- The stacks of a thread hold the loops and the groups that stand around a place. -/
structure Thread.Stacked (t : Thread) (around : List Enclosure) : Prop where
  loops : t.loops.length = around.countP Enclosure.isLoop
  frames : t.frames.map (·.mode) = around.filterMap Enclosure.mode?
  /-- A group has started on the walk. -/
  starts : ∀ f ∈ t.frames, f.start ≤ t.walk.length
  /-- What a variable has taken, it took in a repetition that goes on. -/
  taken : ∀ b ∈ t.taken, b.depth ≤ around.countP Enclosure.isRunning

/-- How often each loop on the stack has been repeated. -/
def Thread.counts (t : Thread) : List Nat := t.loops.map (·.count)

/-- A thread at a spot of a program: its stacks are those of the place, and if it has taken so many edges,
then as many more as may still come are no more than a match may have. -/
structure Thread.Sits (p : PathPattern) (spot : Spot) (t : Thread) : Prop where
  stacked : t.Stacked spot.around
  most : t.walk.length + spot.most t.counts ≤ p.expr.most

/-- A thread at the spot of its own place. -/
def Thread.IsPlaced (p : PathPattern) (t : Thread) : Prop :=
  ∃ spot, p.spots[t.pc]? = some spot ∧ t.Sits p spot

namespace Thread.Stacked

variable {t : Thread} {around : List Enclosure} {mode : PathMode}

theorem bind (h : t.Stacked around) (hidle : .loop false ∉ around) (name : Option String)
    (grouped : Bool) (x : ElementId) : (t.bind name grouped x).Stacked around := by
  obtain ⟨-, hloops, hframes, new, htaken, hnew⟩ := bind_keeps t name grouped x
  refine ⟨hloops ▸ h.loops, hframes ▸ h.frames, ?_, fun b hb => ?_⟩
  · rw [hframes, walk_bind]
    exact h.starts
  · rw [htaken, List.mem_append] at hb
    rcases hb with hb | hb
    · exact h.taken b hb
    · rw [hnew b hb, h.loops, countP_isLoop hidle]

theorem cross (h : t.Stacked around) (hidle : .loop false ∉ around) (pattern : EdgePattern)
    (grouped : Bool) (e : EdgeId) (v : VertexId) (room slack : Nat) :
    (t.cross pattern grouped e v room slack).Stacked around := by
  have hcrossed : Stacked { t with
      pc := t.pc + 1, walk := t.walk.extend e v, room := room, slack := slack } around :=
    ⟨h.loops, h.frames, fun f hf => (h.starts f hf).trans (by simp), h.taken⟩
  exact hcrossed.bind hidle _ _ _

theorem exists_loop {running : Bool} (h : t.Stacked (.loop running :: around)) :
    ∃ l outer, t.loops = l :: outer ∧ outer.length = around.countP Enclosure.isLoop := by
  have hloops := h.loops
  rw [List.countP_cons_of_pos rfl] at hloops
  cases hl : t.loops with
  | nil =>
    rw [hl] at hloops
    cases hloops
  | cons l outer =>
    rw [hl] at hloops
    exact ⟨l, outer, rfl, Nat.succ.inj hloops⟩

theorem exists_frame (h : t.Stacked (.group mode :: around)) :
    ∃ f outer, t.frames = f :: outer ∧ outer.map (·.mode) = around.filterMap Enclosure.mode? := by
  have hframes : t.frames.map (·.mode) = mode :: around.filterMap Enclosure.mode? := h.frames
  obtain ⟨f, outer, hf, -, houter⟩ := List.map_eq_cons_iff.mp hframes
  exact ⟨f, outer, hf, houter⟩

end Thread.Stacked

namespace Thread.Sits

variable {env : Env} {p : PathPattern} {spot : Spot} {t u : Thread} {ts : List Thread}

/-- A thread that comes to a place where its stacks are right and where no more edges may come. -/
theorem comesTo (h : t.Sits p spot) {around : List Enclosure} {most : List Nat → ℕ∞}
    (hat : At p.spots u.pc around most) (hu : u.Stacked around) (hwalk : u.walk = t.walk)
    (hmost : most u.counts ≤ spot.most t.counts) : u.IsPlaced p := by
  obtain ⟨next, hnext, rfl, hle⟩ := hat
  refine ⟨next, hnext, hu, ?_⟩
  rw [hwalk]
  exact (add_le_add_right ((hle u.counts).trans hmost) _).trans h.most

theorem advance (h : t.Sits p spot) {n : Nat} (hat : At p.spots (t.pc + n) spot.around spot.most) :
    (t.advance n).IsPlaced p :=
  h.comesTo hat ⟨h.stacked.loops, h.stacked.frames, h.stacked.starts, h.stacked.taken⟩ rfl le_rfl

theorem node {f : NodePattern} {grouped : Bool} (h : t.Sits p spot)
    (hsound : (Inst.node f grouped).Sound p.spots t.pc spot)
    (he : t.executeNode env f grouped = .threads ts) (hu : u ∈ ts) : u.IsPlaced p := by
  obtain ⟨hidle, hat⟩ := hsound
  simp only [executeNode] at he
  split at he
  · cases he
    obtain rfl := List.mem_singleton.mp hu
    obtain ⟨hpc, hloops, -, -⟩ := bind_keeps t f.name grouped (.vertex t.walk.current)
    have hbound : (t.bind f.name grouped (.vertex t.walk.current)).Sits p spot := by
      refine ⟨h.stacked.bind hidle _ _ _, ?_⟩
      rw [walk_bind, counts, hloops]
      exact h.most
    exact hbound.advance (hpc.symm ▸ hat)
  · cases he

theorem openLoop (h : t.Sits p spot) (hsound : Inst.openLoop.Sound p.spots t.pc spot) :
    ({ t with loops := ⟨0, t.walk.length⟩ :: t.loops }.advance 1).IsPlaced p := by
  obtain ⟨next, hat, hnext⟩ := hsound
  refine h.comesTo hat ⟨?_, h.stacked.frames, h.stacked.starts, h.stacked.taken⟩ rfl (hnext _)
  exact (congrArg (· + 1) h.stacked.loops).trans (List.countP_cons_of_pos rfl).symm

/-- The number of repetitions of the loop on the top of the stack. -/
theorem counts_of_loops {l : Loop} {outer : List Loop} (hl : t.loops = l :: outer) :
    t.counts = l.count :: outer.map (·.count) := by
  rw [counts, hl, List.map_cons]

theorem loop {lower : Nat} {upper : Option Nat} {ahead : Nat} (h : t.Sits p spot)
    (hsound : (Inst.loop lower upper ahead).Sound p.spots t.pc spot)
    (he : t.executeLoop lower upper ahead = .threads ts) (hu : u ∈ ts) : u.IsPlaced p := by
  obtain ⟨outer, haround, hleave, next, henter, hnext⟩ := hsound
  have hstacked : t.Stacked (.loop false :: outer) := haround ▸ h.stacked
  obtain ⟨l, ls, hl, hlength⟩ := hstacked.exists_loop
  set here := { t with loops := ⟨l.count, t.walk.length⟩ :: ls } with hhere
  have hloops (running : Bool) : here.loops.length =
      (Enclosure.loop running :: outer).countP Enclosure.isLoop :=
    (congrArg (· + 1) hlength).trans (List.countP_cons_of_pos rfl).symm
  have hcounts : here.counts = t.counts := (counts_of_loops hl).symm
  have hleft : (here.advance ahead).IsPlaced p :=
    h.comesTo hleave ⟨hloops false, hstacked.frames, hstacked.starts, hstacked.taken⟩ rfl
      (by rw [← hcounts]; exact le_rfl)
  have hentered (hn : l.count < lower ∨ upper ≠ some l.count) : (here.advance 1).IsPlaced p := by
    refine h.comesTo henter ⟨hloops true, hstacked.frames, hstacked.starts, fun b hb => ?_⟩ rfl ?_
    · rw [List.countP_cons_of_pos rfl]
      exact (hstacked.taken b hb).trans (Nat.le_succ _)
    · rw [counts_of_loops hl]
      exact hnext l.count _ hn
  simp only [executeLoop, hl, ← hhere] at he
  split at he
  · next hn =>
    cases he
    obtain rfl := List.mem_singleton.mp hu
    exact hentered (.inl hn)
  · split at he
    · cases he
      obtain rfl := List.mem_singleton.mp hu
      exact hleft
    · next hn =>
      cases he
      rcases List.mem_pair.mp hu with rfl | rfl
      · exact hleft
      · exact hentered (.inr hn)

theorem again {lower back : Nat} (h : t.Sits p spot)
    (hsound : (Inst.again lower back).Sound p.spots t.pc spot)
    (he : t.executeAgain lower back = .threads ts) (hu : u ∈ ts) : u.IsPlaced p := by
  obtain ⟨outer, haround, hidle, -, next, hat, hnext⟩ := hsound
  have hstacked : t.Stacked (.loop true :: outer) := haround ▸ h.stacked
  obtain ⟨l, ls, hl, hlength⟩ := hstacked.exists_loop
  simp only [executeAgain, hl] at he
  split at he
  · cases he
  · cases he
    obtain rfl := List.mem_singleton.mp hu
    refine h.comesTo hat ⟨?_, hstacked.frames, hstacked.starts, fun b hb => ?_⟩ rfl ?_
    · exact (congrArg (· + 1) hlength).trans (List.countP_cons_of_pos rfl).symm
    · -- What was taken in the repetition that ends is forgotten.
      have hdepth : b.depth < ls.length + 1 := of_decide_eq_true (List.mem_filter.mp hb).2
      rw [List.countP_cons_of_neg Bool.false_ne_true, ← countP_isLoop hidle]
      omega
    · rw [counts_of_loops hl]
      exact hnext l.count _

theorem closeLoop (h : t.Sits p spot) (hsound : Inst.closeLoop.Sound p.spots t.pc spot) :
    ({ t with loops := t.loops.tail }.advance 1).IsPlaced p := by
  obtain ⟨outer, haround, next, hat, hnext⟩ := hsound
  have hstacked : t.Stacked (.loop false :: outer) := haround ▸ h.stacked
  obtain ⟨l, ls, hl, hlength⟩ := hstacked.exists_loop
  rw [hl, List.tail_cons]
  refine h.comesTo hat ⟨hlength, hstacked.frames, hstacked.starts, hstacked.taken⟩ rfl ?_
  rw [counts_of_loops hl]
  exact hnext l.count _

theorem openGroup {mode : PathMode} (h : t.Sits p spot)
    (hsound : (Inst.openGroup mode).Sound p.spots t.pc spot) :
    ({ t with frames := ⟨mode, t.walk.length⟩ :: t.frames }.advance 1).IsPlaced p := by
  refine h.comesTo hsound ⟨h.stacked.loops, congrArg (mode :: ·) h.stacked.frames, fun f hf => ?_,
    h.stacked.taken⟩ rfl le_rfl
  rcases List.mem_cons.mp hf with rfl | hf
  · exact Nat.le_refl _
  · exact h.stacked.starts f hf

theorem closeGroup {name : Option String} {condition : Option Expr} {grouped : Bool}
    (h : t.Sits p spot) (hsound : (Inst.closeGroup name condition grouped).Sound p.spots t.pc spot)
    (he : t.executeCloseGroup env name condition grouped = .threads ts) (hu : u ∈ ts) :
    u.IsPlaced p := by
  obtain ⟨mode, outer, haround, hat⟩ := hsound
  have hstacked : t.Stacked (.group mode :: outer) := haround ▸ h.stacked
  obtain ⟨f, fs, hf, hmodes⟩ := hstacked.exists_frame
  simp only [executeCloseGroup, hf] at he
  split at he
  · cases he
  · cases he
    obtain rfl := List.mem_singleton.mp hu
    exact h.comesTo hat ⟨hstacked.loops, hmodes,
      fun f' hf' => hstacked.starts f' (hf ▸ List.mem_cons_of_mem _ hf'), hstacked.taken⟩ rfl le_rfl

end Thread.Sits

namespace Thread.IsPlaced

variable {env : Env} {p : PathPattern} {t u : Thread} {i : Inst} {ts : List Thread}

/-- The spot of a thread at an instruction, and where the instruction goes on. -/
theorem exists_sound (ht : t.IsPlaced p) (hi : (Program.compile p).code[t.pc]? = some i) :
    ∃ spot, p.spots[t.pc]? = some spot ∧ t.Sits p spot ∧ i.Sound p.spots t.pc spot := by
  obtain ⟨spot, hspot, hsits⟩ := ht
  obtain ⟨spot', hspot', hsound⟩ := p.sound hi
  obtain rfl := Option.some.inj (hspot'.symm.trans hspot)
  exact ⟨spot', hspot, hsits, hsound⟩

theorem execute (ht : t.IsPlaced p) (hi : (Program.compile p).code[t.pc]? = some i)
    (he : t.execute env i = .threads ts) (hu : u ∈ ts) : u.IsPlaced p := by
  obtain ⟨spot, -, hsits, hsound⟩ := ht.exists_sound hi
  cases i with
  | node f grouped => exact hsits.node hsound he hu
  | edge pattern grouped =>
    simp only [Thread.execute] at he
    split at he <;> cases he
  | split ahead =>
    cases he
    rcases List.mem_pair.mp hu with rfl | rfl
    · exact hsits.advance hsound.1
    · exact hsits.advance hsound.2
  | jump ahead =>
    cases he
    exact List.mem_singleton.mp hu ▸ hsits.advance hsound
  | openLoop =>
    cases he
    exact List.mem_singleton.mp hu ▸ hsits.openLoop hsound
  | loop lower upper ahead => exact hsits.loop hsound he hu
  | again lower back => exact hsits.again hsound he hu
  | closeLoop =>
    cases he
    exact List.mem_singleton.mp hu ▸ hsits.closeLoop hsound
  | openGroup mode =>
    cases he
    exact List.mem_singleton.mp hu ▸ hsits.openGroup hsound
  | closeGroup name condition grouped => exact hsits.closeGroup hsound he hu
  | accept => cases he

theorem cross {pattern : EdgePattern} {grouped : Bool} (ht : t.IsPlaced p)
    (hi : (Program.compile p).code[t.pc]? = some (.edge pattern grouped)) (e : EdgeId) (v : VertexId)
    (room slack : Nat) : (t.cross pattern grouped e v room slack).IsPlaced p := by
  obtain ⟨spot, -, hsits, hidle, next, ⟨there, hthere, haround, hle⟩, hnext⟩ := ht.exists_sound hi
  obtain ⟨hpc, hloops, -, -⟩ := bind_keeps
    { t with pc := t.pc + 1, walk := t.walk.extend e v, room := room, slack := slack }
    pattern.filler.name grouped (.edge e)
  refine ⟨there, hpc.symm ▸ hthere, haround ▸ hsits.stacked.cross hidle _ _ _ _ _ _, ?_⟩
  rw [walk_cross, Walk.length_extend, counts, Thread.cross, hloops, Nat.cast_add, Nat.cast_one, add_assoc]
  have hmost : 1 + there.most t.counts ≤ spot.most t.counts :=
    (add_le_add_right (hle t.counts) 1).trans (hnext t.counts)
  exact (add_le_add_right hmost _).trans hsits.most

end Thread.IsPlaced

namespace PathPattern

theorem invariant_isPlaced (p : PathPattern) (env : Env) :
    Choice.Invariant env (.compile p) (Thread.IsPlaced p) where
  slack _ h := have ⟨spot, hspot, hsits⟩ := h
    ⟨spot, hspot, ⟨hsits.stacked.loops, hsits.stacked.frames, hsits.stacked.starts, hsits.stacked.taken⟩,
      hsits.most⟩
  execute h hi he hu := h.execute hi he hu
  cross h hi _ _ _ := h.cross hi _ _ _ _

theorem isPlaced_start (p : PathPattern) (v : VertexId) (base : Bindings) (room slack : Nat) :
    (Thread.start v base room slack).IsPlaced p := by
  obtain ⟨spot, hspot, haround, hmost⟩ := p.at_start
  exact ⟨spot, hspot, haround ▸ ⟨rfl, rfl, nofun, nofun⟩, (zero_add _).le.trans (hmost [])⟩

end PathPattern

/-! ## Reached threads -/

/-- What a thread takes from its stacks and from its walk is there. -/
structure Thread.Ready (env : Env) (p : PathPattern) (t : Thread) (i : Inst) (spot : Spot) : Prop where
  instruction : (Program.compile p).code[t.pc]? = some i
  place : p.spots[t.pc]? = some spot
  vertices : t.walk.vertices.length = t.walk.edges.length + 1
  /-- The last vertex of the walk, by the number of its edges. -/
  last : t.walk.vertices[t.walk.length]? = some t.walk.current
  loops : t.loops.length = spot.around.countP Enclosure.isLoop
  frames : t.frames.map (·.mode) = spot.around.filterMap Enclosure.mode?
  taken : ∀ b ∈ t.taken, b.depth ≤ t.loops.length
  /-- The part of the walk that a group has matched so far. -/
  parts : ∀ f ∈ t.frames, f.start ≤ t.walk.length ∧
    (t.walk.since f.start).vertices = t.walk.vertices.drop f.start ∧
    (t.walk.since f.start).edges = t.walk.edges.drop f.start
  /-- The instruction does not drop the thread. -/
  goesOn : ∀ slack, { t with slack := slack }.execute env i ≠ .threads []
  ends : i = .accept → t.loops = [] ∧ t.frames = []

/-- An instruction that takes something from a stack finds it there. -/
theorem Thread.Sits.execute_ne_nil {p : PathPattern} {spot : Spot} {t : Thread} {i : Inst}
    (h : t.Sits p spot) (hsound : i.Sound p.spots t.pc spot) (env : Env) :
    t.execute env i ≠ .threads [] := by
  cases i with
  | loop lower upper ahead =>
    obtain ⟨outer, haround, -⟩ := hsound
    obtain ⟨l, ls, hl, -⟩ := Stacked.exists_loop (haround ▸ h.stacked)
    simp only [execute, executeLoop, hl]
    intro heq
    split at heq
    · cases heq
    · split at heq <;> cases heq
  | again lower back =>
    obtain ⟨outer, haround, -⟩ := hsound
    obtain ⟨l, ls, hl, -⟩ := Stacked.exists_loop (haround ▸ h.stacked)
    simp only [execute, executeAgain, hl]
    intro heq
    split at heq <;> cases heq
  | closeGroup name condition grouped =>
    obtain ⟨mode, outer, haround, -⟩ := hsound
    obtain ⟨f, fs, hf, -⟩ := Stacked.exists_frame (haround ▸ h.stacked)
    simp only [execute, executeCloseGroup, hf]
    intro heq
    split at heq <;> cases heq
  | node f grouped =>
    simp only [execute, executeNode]
    intro heq
    split at heq <;> cases heq
  | edge pattern grouped =>
    simp only [execute]
    intro heq
    split at heq <;> cases heq
  | _ =>
    intro heq
    cases heq

theorem Thread.IsPlaced.ready {p : PathPattern} {t : Thread} {i : Inst} (h : t.IsPlaced p)
    (hi : (Program.compile p).code[t.pc]? = some i) (env : Env) : ∃ spot, t.Ready env p i spot := by
  obtain ⟨spot, hspot, hsits, hsound⟩ := h.exists_sound hi
  have hstacked := hsits.stacked
  refine ⟨spot, hi, hspot, t.walk.length_vertices, ?_, hstacked.loops, hstacked.frames, fun b hb => ?_,
    fun f hf => ?_, fun slack => ?_, ?_⟩
  · rw [← t.walk.getLast?_vertices, List.getLast?_eq_getElem?, t.walk.length_vertices]
    simp [Walk.edges, Walk.length]
  · exact (hstacked.taken b hb).trans ((countP_isRunning_le _).trans_eq hstacked.loops.symm)
  · have hstart := hstacked.starts f hf
    exact ⟨hstart, Walk.vertices_since hstart, t.walk.edges_since f.start⟩
  · have hsits : Sits p spot { t with slack := slack } :=
      ⟨⟨hstacked.loops, hstacked.frames, hstacked.starts, hstacked.taken⟩, hsits.most⟩
    exact hsits.execute_ne_nil hsound env
  · rintro rfl
    have haround : spot.around = [] := hsound
    have hloops := hstacked.loops
    have hframes := hstacked.frames
    rw [haround] at hloops hframes
    exact ⟨List.length_eq_zero_iff.mp hloops, List.map_eq_nil_iff.mp hframes⟩

namespace PathPattern

variable (p : PathPattern) {env : Env} {base : Bindings} {s : Search} {c : Choice}

theorem carries_isPlaced (h : Search.Reached env (.compile p) base s) :
    ∀ c ∈ s.agenda, c.Carries env (.compile p) (Thread.IsPlaced p) :=
  h.carries (p.invariant_isPlaced env) fun v limit _ => p.isPlaced_start v base limit _

/-- Every thread of a search stands at its spot. -/
theorem isPlaced_of_reached (h : Search.Reached env (.compile p) base s) (hc : c ∈ s.agenda) :
    c.thread.IsPlaced p := by
  have hcarries := p.carries_isPlaced h c hc
  cases c with
  | resume t => exact hcarries
  | extend t pattern grouped room candidates => exact hcarries.1

/-- Every thread of a search stands at an instruction, and one that is to run it may. -/
theorem exists_instruction (h : Search.Reached env (.compile p) base s) (hc : c ∈ s.agenda) :
    (∃ i, (Program.compile p).code[c.thread.pc]? = some i) ∧ ∀ t, c = .resume t → 0 < t.slack := by
  have hsustained : c.Sustained env (.compile p) :=
    h.agenda (fun v limit _ => p.isSustained env v base limit) (fun _ _ hcd hc => hc.leadsTo hcd) c hc
  have hcarries := p.carries_isPlaced h c hc
  cases c with
  | resume t =>
    obtain ⟨hslack, hi, -⟩ := hsustained
    refine ⟨⟨_, hi⟩, fun u hu => ?_⟩
    cases hu
    omega
  | extend t pattern grouped room candidates => exact ⟨⟨_, hcarries.2.1⟩, nofun⟩

/-- **A search never falls off its stacks.** Whatever has been searched so far, every thread stands at an
instruction, has on its stacks what stands around it, and is not dropped. -/
theorem stacks_reached (h : Search.Reached env (.compile p) base s) (hc : c ∈ s.agenda) :
    (∃ i spot, c.thread.Ready env p i spot) ∧ ∀ t, c = .resume t → 0 < t.slack := by
  obtain ⟨⟨i, hi⟩, hslack⟩ := p.exists_instruction h hc
  obtain ⟨spot, hready⟩ := (p.isPlaced_of_reached h hc).ready hi env
  exact ⟨⟨i, spot, hready⟩, hslack⟩

/-- A thread in a group of a loop, in the first repetition. -/
theorem stacks_reached_hop :
    let body : PathExpr := .term [.mk (.node {}) none, .mk (.edge { direction := .right }) none,
      .mk (.node {}) none]
    let p : PathPattern := { expr := .term [.mk (.group none none body none) (some (.between 1 2))] }
    let env : Env := ⟨Graph.hop.store, { maxPathLength := 1 }, []⟩
    ∃ s c, Search.Reached env (.compile p) [] s ∧ c ∈ s.agenda ∧
      c.thread.pc = 3 ∧ c.thread.loops.length = 1 ∧ c.thread.frames.map (·.mode) = [.walk] ∧
      (∃ i spot, c.thread.Ready env p i spot ∧ spot.around = [.group .walk, .loop true]) ∧
      ∀ t, c = .resume t → 0 < t.slack := by
  intro body p env
  let t : Thread := ⟨3, ⟨⟨1⟩, []⟩, [], [⟨0, 0⟩], [⟨.walk, 0⟩], [], 1, 22⟩
  obtain ⟨s, hreached, ha⟩ : ∃ s, Search.Reached env (.compile p) [] s ∧ s.agenda = [.resume t] :=
    ⟨_, .step {} (.step {} (.step {} (.step {} (.begin {}) rfl) rfl) rfl) rfl, rfl⟩
  have hc : Choice.resume t ∈ s.agenda := ha ▸ List.mem_cons_self
  refine ⟨s, .resume t, hreached, hc, rfl, rfl, rfl, ?_⟩
  obtain ⟨⟨i, spot, hready⟩, hslack⟩ := p.stacks_reached hreached hc
  refine ⟨⟨i, spot, hready, ?_⟩, hslack⟩
  have haround : p.spots[3]?.map (·.around) = some [.group .walk, .loop true] := rfl
  have hplace : p.spots[3]? = some spot := hready.place
  rw [hplace] at haround
  exact Option.some.inj haround

end PathPattern

end GraphPatterns
