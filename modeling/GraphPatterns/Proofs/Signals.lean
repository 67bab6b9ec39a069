/-
A controller by itself, apart from the search that offers it candidates. It is given a sequence of
signals: candidates, and ends of lengths (`Signal`). As long as the candidates come in order of length,
and no end of a length comes before a candidate of that length, the controller accepts what its selector
selects from all of them, however many of the ends are signalled (`Controller.run_signals`).
-/
import GraphPatterns.Proofs.Judging

namespace GraphPatterns

variable {α : Type}

/-- What a controller is told. -/
inductive Signal (α : Type) where
  /-- A candidate has been found. -/
  | offer (x : α)
  /-- All candidates of a length have been found. -/
  | endLength (n : Nat)

namespace Signal

/-- The candidates among some signals. -/
def offers (signals : List (Signal α)) : List α :=
  signals.filterMap fun
    | offer x => some x
    | endLength _ => none

/-- One signal may come before another one, if the candidates are found in order of length. -/
def MayPrecede (length : α → Nat) : Signal α → Signal α → Prop
  | offer x, offer y => length x ≤ length y
  | offer x, endLength n => length x ≤ n
  | endLength n, offer y => n < length y
  | endLength _, endLength _ => True

end Signal

namespace Controller

/-- Gives a controller some signals, one after the other: the candidates it accepts, and the controller
at the end. -/
def run (length : α → Nat) : Controller → List (Signal α) → List α × Controller
  | c, [] => ([], c)
  | c, .offer x :: signals =>
    let answer := c.offer (length x)
    let later := run length answer.2 signals
    (if answer.1 then x :: later.1 else later.1, later.2)
  | c, .endLength n :: signals => run length (c.endLength n) signals

variable {c : Controller} {selector : Selector} {ties : TiePolicy} {length : α → Nat} {least : Nat}

/-- A controller that tracks the candidates before some signals accepts those that are wanted of the
candidates among them. -/
theorem Tracks.run {earlier : List α} (h : c.Tracks selector ties (earlier.map length) least)
    {signals : List (Signal α)}
    (hsignals : selector.isShortest = true →
      (earlier.map Signal.offer ++ signals).Pairwise (Signal.MayPrecede length) ∧
        ∀ x, .offer x ∈ signals → least ≤ length x) :
    (c.run length signals).1 =
      keepAfter (fun earlier x => selector.wants ties (earlier.map length) (length x)) earlier
        (Signal.offers signals) := by
  induction signals generalizing c earlier least with
  | nil => rfl
  | cons s signals ih =>
    cases s with
    | offer x =>
      obtain ⟨hanswer, hnext⟩ := h.offer fun hs => (hsignals hs).2 x List.mem_cons_self
      have hnext : (c.offer (length x)).2.Tracks selector ties ((earlier ++ [x]).map length) (length x) := by
        rwa [List.map_append]
      have hlater := ih hnext fun hs => by
        obtain ⟨horder, -⟩ := hsignals hs
        refine ⟨by simpa using horder, fun y hy => ?_⟩
        exact (List.pairwise_cons.mp (List.pairwise_append.mp horder).2.1).1 (.offer y) hy
      rw [Controller.run, hanswer, hlater]
      rfl
    | endLength n =>
      -- No earlier candidate is longer, and all later ones are.
      have hnext := h.endLength (n := n) fun hs m hm => by
        obtain ⟨x, hx, rfl⟩ := List.mem_map.mp hm
        exact (List.pairwise_append.mp (hsignals hs).1).2.2 (.offer x) (List.mem_map_of_mem hx)
          (.endLength n) List.mem_cons_self
      refine ih hnext fun hs => ?_
      obtain ⟨horder, hleast⟩ := hsignals hs
      refine ⟨horder.sublist ((List.sublist_cons_self _ _).append_left _), fun y hy => ?_⟩
      exact Nat.max_le.mpr ⟨hleast y (List.mem_cons_of_mem _ hy),
        (List.pairwise_cons.mp (List.pairwise_append.mp horder).2.1).1 (.offer y) hy⟩

theorem accepted_offer (c : Controller) (n : Nat) :
    (c.offer n).2.accepted = c.accepted + if (c.offer n).1 then 1 else 0 := by
  rw [offer]
  split
  · rfl
  · dsimp only
    split <;> rfl

theorem accepted_endLength (c : Controller) (n : Nat) : (c.endLength n).accepted = c.accepted := by
  rw [endLength]
  split <;> rfl

theorem accepted_run (c : Controller) (signals : List (Signal α)) :
    (c.run length signals).2.accepted = c.accepted + (c.run length signals).1.length := by
  induction signals generalizing c with
  | nil => rfl
  | cons s signals ih =>
    cases s with
    | offer x =>
      simp only [run, ih, accepted_offer]
      split
      · rw [List.length_cons]
        omega
      · rfl
    | endLength n => rw [run, ih, accepted_endLength]

/-- A controller that has terminated accepts nothing more and does not change. -/
theorem run_of_terminated (h : c.terminated = true) (signals : List (Signal α)) :
    c.run length signals = ([], c) := by
  induction signals with
  | nil => rfl
  | cons s signals ih =>
    cases s with
    | offer x =>
      have hoffer : c.offer (length x) = (false, c) := by rw [offer, if_pos h]
      rw [run, hoffer, ih]
      rfl
    | endLength n =>
      have hend : c.endLength n = c := by simp [endLength, h]
      rw [run, hend, ih]

/-- **A controller accepts what its selector selects**, whatever ends of lengths it is told, and counts
it. Once it has terminated it stays as it is. -/
theorem run_signals (selector : Selector) (ties : TiePolicy) (length : α → Nat)
    {signals : List (Signal α)}
    (h : selector.isShortest = true → signals.Pairwise (Signal.MayPrecede length)) :
    let r := (start selector ties).run length signals
    r.1 = selector.select ties length (Signal.offers signals) ∧ r.2.accepted = r.1.length ∧
      ∀ c : Controller, c.terminated = true → ∀ more : List (Signal α), c.run length more = ([], c) := by
  intro r
  refine ⟨?_, ?_, fun c hc more => run_of_terminated hc more⟩
  · have hordered : selector.ordered length (Signal.offers signals) = Signal.offers signals := by
      rw [Selector.ordered]
      split
      · next hs =>
        refine sortedBy_of_pairwise length ((h hs).filterMap _ fun s t hst x hx y hy => ?_)
        cases s <;> cases hx
        cases t <;> cases hy
        exact hst
      · rfl
    rw [← Selector.keep_wants, hordered]
    have hstart : (start selector ties).Tracks selector ties (([] : List α).map length) 0 :=
      tracks_start selector ties
    exact hstart.run fun hs => ⟨h hs, fun _ _ => Nat.zero_le _⟩
  · exact (accepted_run _ signals).trans (Nat.zero_add _)

/-- With ties, the two shortest candidates of four are three. It makes no difference which ends of
lengths are signalled. -/
theorem run_signals_ties :
    let signals : List (Signal Nat) :=
      [.offer 1, .endLength 1, .endLength 2, .offer 3, .offer 3, .endLength 3, .endLength 3, .offer 4]
    let r := (start (.shortestK 2) .includeAll).run id signals
    signals.Pairwise (Signal.MayPrecede id) ∧
      (Selector.shortestK 2).select .includeAll id [1, 3, 3, 4] = [1, 3, 3] ∧
      r.1 = [1, 3, 3] ∧ r.2.accepted = 3 := by
  intro signals r
  have horder : signals.Pairwise (Signal.MayPrecede id) := by simp [signals, Signal.MayPrecede]
  obtain ⟨haccepted, hcount, -⟩ := run_signals (.shortestK 2) .includeAll id fun _ => horder
  have hr : r.1 = [1, 3, 3] := rfl
  exact ⟨horder, haccepted.symm.trans hr, hr, hcount.trans (congrArg List.length hr)⟩

end Controller

end GraphPatterns
