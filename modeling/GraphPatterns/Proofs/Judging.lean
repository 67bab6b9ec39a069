/-
The choice that a search makes among its candidates is the selection of its selector. A controller that
has been offered some candidates tracks their lengths (`Controller.Tracks`): as long as it has not
terminated it has accepted them all and would accept another one as long as the last; once it has
terminated no later candidate is wanted. So each answer is the one of `Selector.wants`, for one choice
overall and for one choice for each pair of endpoints alike (`Judge.Tracks.sift`).
-/
import GraphPatterns.Proofs.Selection
import GraphPatterns.Proofs.Solutions
import Mathlib.Data.List.Perm.Subperm

namespace GraphPatterns

namespace Controller

/-- A controller has been offered candidates of the given lengths, and will be offered none shorter than
`least` if it selects shortest paths. -/
structure Tracks (c : Controller) (selector : Selector) (ties : TiePolicy) (earlier : List Nat)
    (least : Nat) : Prop where
  selector_eq : c.selector = selector
  ties_eq : c.ties = ties
  sorted : selector.isShortest = true → earlier.Pairwise (· ≤ ·)
  bounded : selector.isShortest = true → ∀ n ∈ earlier, n ≤ least
  accepted : c.terminated = false → c.accepted = earlier.length
  classes : c.terminated = false → selector.isShortest = true → c.classes = earlier.dedup.length
  first : c.terminated = false → c.first = earlier.head?
  last : c.terminated = false → c.last = earlier.getLast?
  /-- Another candidate as long as the last one would be wanted. -/
  wanting : c.terminated = false → ∀ n, (∀ m ∈ earlier.getLast?, m = n) →
    selector.wants ties earlier n = true
  done : c.terminated = true → ∀ n, (selector.isShortest = true → least ≤ n) →
    selector.wants ties earlier n = false

variable {c : Controller} {selector : Selector} {ties : TiePolicy} {earlier : List Nat} {least : Nat}

theorem tracks_start (selector : Selector) (ties : TiePolicy) :
    (start selector ties).Tracks selector ties [] 0 where
  selector_eq := rfl
  ties_eq := rfl
  sorted _ := .nil
  bounded _ _ h := by cases h
  accepted _ := rfl
  classes _ _ := rfl
  first _ := rfl
  last _ := rfl
  wanting h n _ := by
    cases selector with
    | all | any | anyShortest | allShortest => rfl
    | anyK k | shortestK k | shortestGroups k =>
      have hk : (k == 0) = false := h
      simp only [beq_eq_false_iff_ne] at hk
      simp [Selector.wants]
      omega
  done h n _ := by
    cases selector with
    | all | any | anyShortest | allShortest => cases h
    | anyK k | shortestK k | shortestGroups k =>
      have hk : (k == 0) = true := h
      obtain rfl := beq_iff_eq.mp hk
      simp [Selector.wants]

namespace Tracks

theorem le_last (h : c.Tracks selector ties earlier least) (hs : selector.isShortest = true) {n m : Nat}
    (hn : n ∈ earlier) (hm : earlier.getLast? = some m) : n ≤ m := by
  obtain ⟨init, rfl⟩ := List.getLast?_eq_some_iff.mp hm
  rcases List.mem_append.mp hn with hn | hn
  · exact (List.pairwise_append.mp (h.sorted hs)).2.2 n hn m (by simp)
  · exact Nat.le_of_eq (List.mem_singleton.mp hn)

/-- A length that has come already and may come again is the last one. -/
theorem last_of_mem (h : c.Tracks selector ties earlier least) (hs : selector.isShortest = true) {n : Nat}
    (hn : least ≤ n) (hmem : n ∈ earlier) : earlier.getLast? = some n := by
  obtain ⟨m, hm⟩ : ∃ m, earlier.getLast? = some m :=
    ⟨_, List.getLast?_eq_some_getLast (List.ne_nil_of_mem hmem)⟩
  have hle := h.le_last hs hmem hm
  have hge := h.bounded hs m (List.mem_of_getLast? hm)
  rw [hm, show m = n by omega]

theorem exists_wanted (h : c.Tracks selector ties earlier least) (ht : c.terminated = false) :
    ∃ n, (∀ m ∈ earlier.getLast?, m = n) ∧ selector.wants ties earlier n = true := by
  cases hlast : earlier.getLast? with
  | none => exact ⟨0, nofun, h.wanting ht 0 (by simp [hlast])⟩
  | some m =>
    refine ⟨m, fun a ha => ?_, h.wanting ht m fun a ha => ?_⟩
    · exact (Option.mem_some_iff.mp ha).symm
    · rw [hlast] at ha
      exact (Option.mem_some_iff.mp ha).symm

/-- The answer of a controller that has not terminated: whether the candidate is wanted; and the choice
ends with it unless one more of the same length would be wanted. -/
def Answers (selector : Selector) (ties : TiePolicy) (earlier : List Nat) (n : Nat)
    (answer : Bool × Bool) : Prop :=
  answer.1 = selector.wants ties earlier n ∧
    answer.2 = !(answer.1 && selector.wants ties (earlier ++ [n]) n)

theorem answers_allShortest (h : c.Tracks .allShortest ties earlier least)
    (ht : c.terminated = false) {n : Nat} (hn : least ≤ n) :
    Answers .allShortest ties earlier n (c.judge n) := by
  simp only [Answers, judge, h.selector_eq, h.first ht, Selector.wants]
  cases earlier with
  | nil => simp
  | cons m earlier =>
    have hm := h.bounded rfl m (by simp)
    simp only [List.head?_cons, List.cons_append, Option.all_some]
    split
    · next hlt =>
      have hne : m ≠ n := by omega
      simp [hne]
    · next hge =>
      obtain rfl : m = n := by omega
      simp

theorem answers_shortestK {k : Nat} (h : c.Tracks (.shortestK k) ties earlier least)
    (ht : c.terminated = false) (n : Nat) :
    Answers (.shortestK k) ties earlier n (c.judge n) := by
  obtain ⟨m, hm, hopen⟩ := h.exists_wanted ht
  simp only [Answers, judge, h.selector_eq, h.ties_eq, h.accepted ht, h.last ht]
  simp only [Selector.wants, Bool.or_eq_true, Bool.and_eq_true, decide_eq_true_eq,
    beq_iff_eq] at hopen
  by_cases hlt : earlier.length < k
  · rw [if_pos hlt]
    refine ⟨by simp [Selector.wants, hlt], ?_⟩
    cases ties with
    | truncate =>
      rw [Bool.eq_iff_iff]
      simp [Selector.wants]
    | includeAll =>
      have hagain : (Selector.shortestK k).wants .includeAll (earlier ++ [n]) n = true := by
        simp only [Selector.wants, List.length_append, List.length_singleton, Bool.or_eq_true,
          Bool.and_eq_true, decide_eq_true_eq, beq_iff_eq]
        rcases Nat.lt_or_ge (earlier.length + 1) k with hlt' | hge
        · exact .inl hlt'
        · refine .inr ⟨⟨by omega, trivial⟩, ?_⟩
          rw [show k - 1 = earlier.length by omega, List.getElem?_concat_length]
      simp [hagain]
  · rw [if_neg hlt]
    obtain ⟨⟨hk, rfl⟩, hlast⟩ := hopen.resolve_left hlt
    have hget : earlier.getLast? = some m := by
      cases hl : earlier.getLast? with
      | none => simp [List.getLast?_eq_none_iff.mp hl] at hlast
      | some a => rw [hm a hl]
    have hwants (a : Nat) : (Selector.shortestK k).wants .includeAll earlier a = decide (m = a) := by
      rw [Bool.eq_iff_iff]
      simp [Selector.wants, hlt, hk, hlast]
    rw [hget, hwants]
    by_cases hmn : m = n
    · subst hmn
      have hagain : (Selector.shortestK k).wants .includeAll (earlier ++ [m]) m = true := by
        simp only [Selector.wants, Bool.or_eq_true, Bool.and_eq_true, decide_eq_true_eq, beq_iff_eq]
        refine .inr ⟨⟨hk, trivial⟩, ?_⟩
        rw [List.getElem?_append_left (by omega), hlast]
      simp [hagain]
    · simp [hmn]

theorem answers_shortestGroups {k : Nat} (h : c.Tracks (.shortestGroups k) ties earlier least)
    (ht : c.terminated = false) {n : Nat} (hn : least ≤ n) :
    Answers (.shortestGroups k) ties earlier n (c.judge n) := by
  obtain ⟨m, hm, hopen⟩ := h.exists_wanted ht
  simp only [Answers, judge, h.selector_eq, h.classes ht rfl, h.last ht]
  have hwants (ns : List Nat) (a : Nat) : (Selector.shortestGroups k).wants ties ns a =
    decide ((ns ++ [a]).dedup.length ≤ k) := rfl
  have hagain : (Selector.shortestGroups k).wants ties (earlier ++ [n]) n =
      (Selector.shortestGroups k).wants ties earlier n := by
    rw [hwants, hwants, Selector.length_dedup_append, if_pos (by simp)]
  rw [hagain]
  by_cases hlast : earlier.getLast? = some n
  · have hmn : n = m := hm n hlast
    rw [if_pos (.inl hlast), hmn, hopen]
    exact ⟨rfl, rfl⟩
  · have hnew : n ∉ earlier := fun hmem => hlast (h.last_of_mem rfl hn hmem)
    rw [hwants, Selector.length_dedup_append, if_neg hnew]
    by_cases hk : earlier.dedup.length < k
    · rw [if_pos (.inr hk)]
      have : earlier.dedup.length + 1 ≤ k := hk
      simp [this]
    · rw [if_neg (by simp [hlast, hk])]
      have : ¬earlier.dedup.length + 1 ≤ k := hk
      simp [this]

theorem answers (h : c.Tracks selector ties earlier least) (ht : c.terminated = false) {n : Nat}
    (hn : selector.isShortest = true → least ≤ n) :
    Answers selector ties earlier n (c.judge n) := by
  obtain ⟨m, -, hwants⟩ := h.exists_wanted ht
  cases selector with
  | all => simp [Answers, judge, h.selector_eq, Selector.wants]
  | any | anyShortest =>
    simp only [Selector.wants, decide_eq_true_eq] at hwants
    obtain rfl : earlier = [] := List.length_eq_zero_iff.mp (by omega)
    simp [Answers, judge, h.selector_eq, Selector.wants]
  | anyK k =>
    simp only [Selector.wants, decide_eq_true_eq] at hwants
    simp only [Answers, judge, h.selector_eq, Selector.wants, h.accepted ht, hwants, decide_true,
      List.length_append, List.length_singleton, Bool.true_and, true_and]
    rw [Bool.eq_iff_iff]
    simp
  | allShortest => exact h.answers_allShortest ht (hn rfl)
  | shortestK k => exact h.answers_shortestK ht n
  | shortestGroups k => exact h.answers_shortestGroups ht (hn rfl)

theorem sorted_append (h : c.Tracks selector ties earlier least) {n : Nat}
    (hn : selector.isShortest = true → least ≤ n) (hs : selector.isShortest = true) :
    (earlier ++ [n]).Pairwise (· ≤ ·) := by
  refine List.pairwise_append.mpr ⟨h.sorted hs, List.pairwise_singleton _ _, fun a ha b hb => ?_⟩
  rw [List.mem_singleton.mp hb]
  exact Nat.le_trans (h.bounded hs a ha) (hn hs)

theorem bounded_append (h : c.Tracks selector ties earlier least) {n : Nat}
    (hn : selector.isShortest = true → least ≤ n) (hs : selector.isShortest = true) :
    ∀ m ∈ earlier ++ [n], m ≤ n := by
  intro m hm
  rcases List.mem_append.mp hm with hm | hm
  · exact Nat.le_trans (h.bounded hs m hm) (hn hs)
  · exact Nat.le_of_eq (List.mem_singleton.mp hm)

/-- Once the choice has ended, all that matters is that nothing is wanted any more. -/
theorem of_terminated {ns : List Nat} (hselector : c.selector = selector) (hties : c.ties = ties)
    (ht : c.terminated = true) (hsorted : selector.isShortest = true → ns.Pairwise (· ≤ ·))
    (hbounded : selector.isShortest = true → ∀ n ∈ ns, n ≤ least)
    (hdone : ∀ n, (selector.isShortest = true → least ≤ n) → selector.wants ties ns n = false) :
    c.Tracks selector ties ns least where
  selector_eq := hselector
  ties_eq := hties
  sorted := hsorted
  bounded := hbounded
  accepted hf := by simp [ht] at hf
  classes hf := by simp [ht] at hf
  first hf := by simp [ht] at hf
  last hf := by simp [ht] at hf
  wanting hf := by simp [ht] at hf
  done _ := hdone

/-- The controller after a candidate that is wanted, where the choice ends unless one more of the same
length would be wanted. -/
theorem accept (h : c.Tracks selector ties earlier least) (ht : c.terminated = false) {n : Nat}
    (hn : selector.isShortest = true → least ≤ n) {ends : Bool}
    (hends : ends = !selector.wants ties (earlier ++ [n]) n) :
    { c.accept n with terminated := ends }.Tracks selector ties (earlier ++ [n]) n where
  selector_eq := h.selector_eq
  ties_eq := h.ties_eq
  sorted := h.sorted_append hn
  bounded := h.bounded_append hn
  accepted _ := by simp [Controller.accept, h.accepted ht]
  classes _ hs := by
    have hiff : c.last = some n ↔ n ∈ earlier := by
      rw [h.last ht]
      exact ⟨List.mem_of_getLast?, h.last_of_mem hs (hn hs)⟩
    simp only [Controller.accept, Selector.length_dedup_append, h.classes ht hs, hiff]
  first _ := by
    simp only [Controller.accept, h.first ht]
    cases earlier <;> rfl
  last _ := by simp [Controller.accept]
  wanting hf a hlast := by
    obtain rfl : n = a := hlast n (by simp)
    simpa [show ends = false from hf] using hends
  done hf m hm := by
    have hnot : selector.wants ties (earlier ++ [n]) n = false := by
      simpa [show ends = true from hf] using hends
    exact Selector.not_wants_later hnot fun hs => ⟨h.bounded_append hn hs, hm hs⟩

theorem offer (h : c.Tracks selector ties earlier least) {n : Nat}
    (hn : selector.isShortest = true → least ≤ n) :
    (c.offer n).1 = selector.wants ties earlier n ∧
      (c.offer n).2.Tracks selector ties (earlier ++ [n]) n := by
  -- What is not wanted now is not wanted after one more candidate either.
  have hlater {m : Nat} (hm : selector.wants ties earlier m = false) :
      selector.wants ties (earlier ++ [n]) m = false := by
    rw [← Bool.not_eq_true] at hm ⊢
    exact fun hw => hm (Selector.wants_append _ hw)
  cases ht : c.terminated with
  | true =>
    have hoffer : c.offer n = (false, c) := by simp [Controller.offer, ht]
    rw [hoffer]
    refine ⟨(h.done ht n hn).symm, ?_⟩
    exact of_terminated h.selector_eq h.ties_eq ht (h.sorted_append hn) (h.bounded_append hn)
      fun m hm => hlater (h.done ht m fun hs => Nat.le_trans (hn hs) (hm hs))
  | false =>
    obtain ⟨hwanted, hends⟩ := h.answers ht hn
    have hoffer : c.offer n = ((c.judge n).1,
        { (if (c.judge n).1 then c.accept n else c) with terminated := (c.judge n).2 }) := by
      simp [Controller.offer, ht]
    rw [hoffer]
    refine ⟨hwanted, ?_⟩
    cases hw : (c.judge n).1 with
    | true =>
      rw [hw, Bool.true_and] at hends
      exact h.accept ht hn hends
    | false =>
      rw [hw, Bool.false_and, Bool.not_false] at hends
      refine of_terminated h.selector_eq h.ties_eq hends (h.sorted_append hn) (h.bounded_append hn)
        fun m hm => hlater (Selector.not_wants_later (hwanted.symm.trans hw) fun hs => ⟨?_, hm hs⟩)
      exact fun a ha => Nat.le_trans (h.bounded hs a ha) (hn hs)

theorem mono (h : c.Tracks selector ties earlier least) {n : Nat}
    (hn : selector.isShortest = true → least ≤ n) : c.Tracks selector ties earlier n where
  __ := h
  bounded hs m hm := Nat.le_trans (h.bounded hs m hm) (hn hs)
  done ht m hm := h.done ht m fun hs => Nat.le_trans (hn hs) (hm hs)

/-- At the end of a length a controller that has what it wants terminates, and what comes later is
longer. -/
theorem endLength (h : c.Tracks selector ties earlier least) {n : Nat}
    (hn : selector.isShortest = true → ∀ m ∈ earlier, m ≤ n) :
    (c.endLength n).Tracks selector ties earlier (max least (n + 1)) := by
  have hmono := h.mono (n := max least (n + 1)) fun _ => Nat.le_max_left ..
  unfold Controller.endLength
  split
  · exact hmono
  · next hlive =>
    simp only [Bool.or_eq_true, bne_iff_ne, ne_eq, not_or, Bool.not_eq_true, Decidable.not_not] at hlive
    obtain ⟨ht, hlast⟩ := hlive
    rw [h.last ht] at hlast
    dsimp only
    refine ⟨h.selector_eq, h.ties_eq, h.sorted, hmono.bounded, fun _ => h.accepted ht,
      fun _ => h.classes ht, fun _ => h.first ht, fun _ => h.last ht, fun _ => h.wanting ht,
      fun hends m hm => ?_⟩
    simp only [h.selector_eq, h.accepted ht] at hends
    have hle (hs : selector.isShortest = true) (a : Nat) (ha : a ∈ earlier) : a < m :=
      Nat.lt_of_le_of_lt (hn hs a ha) (Nat.le_trans (Nat.le_max_right ..) (hm hs))
    cases selector with
    | all | any | anyK k | anyShortest => cases hends
    | allShortest =>
      obtain ⟨init, rfl⟩ := List.getLast?_eq_some_iff.mp hlast
      cases init with
      | nil => simpa [Selector.wants] using Nat.ne_of_lt (hle rfl n (by simp))
      | cons a init => simpa [Selector.wants] using Nat.ne_of_lt (hle rfl a (by simp))
    | shortestK k =>
      have hk : k ≤ earlier.length := of_decide_eq_true hends
      have hnone : earlier[k - 1]? ≠ some m := fun hget =>
        Nat.lt_irrefl m (hle rfl m (List.mem_of_getElem? hget))
      simp [Selector.wants, hk, hnone]
    | shortestGroups k =>
      have hk : k ≤ earlier.dedup.length := h.classes ht rfl ▸ of_decide_eq_true hends
      have hnew : m ∉ earlier := fun hmem => Nat.lt_irrefl m (hle rfl m hmem)
      simp only [Selector.wants, Selector.length_dedup_append, if_neg hnew, decide_eq_false_iff_not]
      omega

end Tracks

end Controller

/-! ## One choice overall or one for each pair of endpoints -/

/-- Whether solutions with the given endpoints are counted together. -/
def SearchScope.joins (scope : SearchScope) (a b : VertexId × VertexId) : Bool :=
  match scope with
  | .overall => true
  | .perEndpoints => a = b

/-- The lengths of the solutions that are counted together with those of the given endpoints. -/
def SearchScope.lengths (scope : SearchScope) (ends : VertexId × VertexId)
    (earlier : List Solution) : List Nat :=
  (earlier.filter fun x => scope.joins x.path.ends ends).map (·.path.length)

theorem SearchScope.lengths_overall (ends : VertexId × VertexId) (earlier : List Solution) :
    SearchScope.overall.lengths ends earlier = earlier.map (·.path.length) :=
  congrArg (List.map _) (List.filter_true earlier)

theorem SearchScope.lengths_perEndpoints (ends : VertexId × VertexId) (earlier : List Solution) :
    SearchScope.perEndpoints.lengths ends earlier =
      (earlier.filter (·.path.ends = ends)).map (·.path.length) := rfl

/-- Whether a solution is wanted, in view of those before it. -/
def Selector.wantsAmong (selector : Selector) (scope : SearchScope) (ties : TiePolicy)
    (earlier : List Solution) (x : Solution) : Bool :=
  selector.wants ties (scope.lengths x.path.ends earlier) x.path.length

theorem SearchScope.lengths_append (scope : SearchScope) (ends : VertexId × VertexId)
    (earlier more : List Solution) :
    scope.lengths ends (earlier ++ more) = scope.lengths ends earlier ++ scope.lengths ends more := by
  simp [lengths]

namespace Judge

/-- The controller for the given endpoints. -/
def controller (fresh : Controller) (judge : Judge) (ends : VertexId × VertexId) : Controller :=
  match judge with
  | .overall c => c
  | .perPair cs => (cs.get? ends).getD fresh

/-- The pairs of endpoints with a controller of their own. -/
def pairs : Judge → List (VertexId × VertexId)
  | .overall _ => []
  | .perPair cs => cs.keys

def scope : Judge → SearchScope
  | .overall _ => .overall
  | .perPair _ => .perEndpoints

/-- A judge has been offered some solutions, and will be offered none shorter than `least` if it selects
shortest paths. -/
structure Tracks (judge : Judge) (fresh : Controller) (scope : SearchScope) (selector : Selector)
    (ties : TiePolicy) (earlier : List Solution) (least : Nat) : Prop where
  scope_eq : judge.scope = scope
  untouched : fresh.last = none
  controller : ∀ ends,
    (judge.controller fresh ends).Tracks selector ties (scope.lengths ends earlier) least
  nodup : judge.pairs.Nodup
  /-- A pair has a controller only if a solution with these endpoints has been offered. -/
  met : ∀ ends ∈ judge.pairs, ∃ x ∈ earlier, x.path.ends = ends

variable {judge : Judge} {fresh : Controller} {scope : SearchScope} {selector : Selector}
  {ties : TiePolicy} {earlier : List Solution} {least : Nat}

theorem tracks_start (scope : SearchScope) (selector : Selector) (ties : TiePolicy) :
    (start scope (.start selector ties)).Tracks (.start selector ties) scope selector ties [] 0 where
  scope_eq := by cases scope <;> rfl
  untouched := rfl
  controller ends := by cases scope <;> exact Controller.tracks_start selector ties
  nodup := by cases scope <;> exact .nil
  met ends h := by cases scope <;> cases h

theorem controller_offer (fresh : Controller) (judge : Judge) (ends other : VertexId × VertexId)
    (length : Nat) :
    (judge.offer fresh ends length).1 = ((judge.controller fresh ends).offer length).1 ∧
      (judge.offer fresh ends length).2.controller fresh other =
        if judge.scope.joins ends other then ((judge.controller fresh ends).offer length).2
        else judge.controller fresh other := by
  cases judge with
  | overall c => exact ⟨rfl, rfl⟩
  | perPair cs =>
    refine ⟨rfl, ?_⟩
    simp only [offer, controller, scope, SearchScope.joins, Assoc.get?_insert, decide_eq_true_eq]
    split <;> rfl

/-- After an offer the endpoints of the offer have a controller, if each pair of endpoints has one. -/
theorem pairs_offer (fresh : Controller) (judge : Judge) (ends : VertexId × VertexId) (length : Nat) :
    (judge.offer fresh ends length).2.pairs = judge.pairs ∨
      ends ∉ judge.pairs ∧ (judge.offer fresh ends length).2.pairs = judge.pairs ++ [ends] := by
  cases judge with
  | overall c => exact .inl rfl
  | perPair cs =>
    have hkeys := Assoc.keys_insert cs ends (((cs.get? ends).getD fresh).offer length).2
    by_cases hmem : ends ∈ cs.keys
    · rw [if_pos hmem] at hkeys
      exact .inl hkeys
    · rw [if_neg hmem] at hkeys
      exact .inr ⟨hmem, hkeys⟩

theorem pairs_endLength (judge : Judge) (length : Nat) :
    (judge.endLength length).pairs = judge.pairs := by
  cases judge with
  | overall c => rfl
  | perPair cs => exact Assoc.keys_map cs (·.endLength length)

namespace Tracks

theorem mono (h : judge.Tracks fresh scope selector ties earlier least) {n : Nat}
    (hn : selector.isShortest = true → least ≤ n) :
    judge.Tracks fresh scope selector ties earlier n where
  __ := h
  controller ends := (h.controller ends).mono hn

/-- A solution is accepted if it is wanted. -/
theorem offer (h : judge.Tracks fresh scope selector ties earlier least) {x : Solution}
    (hx : selector.isShortest = true → least ≤ x.path.length) :
    (judge.offer fresh x.path.ends x.path.length).1 = selector.wantsAmong scope ties earlier x ∧
      (judge.offer fresh x.path.ends x.path.length).2.Tracks fresh scope selector ties
        (earlier ++ [x]) x.path.length := by
  obtain ⟨hanswer, hnext⟩ := (h.controller x.path.ends).offer hx
  refine ⟨?_, ?_, h.untouched, fun ends => ?_, ?_, fun ends hends => ?_⟩
  · rw [(controller_offer fresh judge x.path.ends x.path.ends x.path.length).1]
    exact hanswer
  · rw [← h.scope_eq]
    cases judge <;> rfl
  · rw [(controller_offer fresh judge x.path.ends ends x.path.length).2, h.scope_eq,
      SearchScope.lengths_append]
    by_cases hj : scope.joins x.path.ends ends = true
    · have hsame : scope.lengths x.path.ends earlier = scope.lengths ends earlier := by
        cases scope with
        | overall => rfl
        | perEndpoints => rw [show x.path.ends = ends from of_decide_eq_true hj]
      rw [if_pos hj, ← hsame]
      simpa [SearchScope.lengths, hj] using hnext
    -- Endpoints that are counted apart keep their controller.
    · rw [if_neg hj]
      simpa [SearchScope.lengths, hj] using (h.controller ends).mono hx
  · rcases pairs_offer fresh judge x.path.ends x.path.length with hsame | ⟨hnew, hmore⟩
    · rw [hsame]
      exact h.nodup
    · rw [hmore]
      exact List.nodup_append.mpr ⟨h.nodup, List.nodup_singleton _, fun a ha b hb hab =>
        hnew (List.mem_singleton.mp hb ▸ hab ▸ ha)⟩
  · have hcases : ends ∈ judge.pairs ∨ ends = x.path.ends := by
      rcases pairs_offer fresh judge x.path.ends x.path.length with hsame | ⟨-, hmore⟩
      · exact .inl (hsame ▸ hends)
      · rw [hmore] at hends
        simpa using hends
    rcases hcases with hold | rfl
    · obtain ⟨y, hy, rfl⟩ := h.met ends hold
      exact ⟨y, List.mem_append_left _ hy, rfl⟩
    · exact ⟨x, by simp, rfl⟩

/-- Of the candidates of a round those are wanted that the selector wants. -/
theorem sift (h : judge.Tracks fresh scope selector ties earlier least) {xs : List Solution}
    (hxs : selector.isShortest = true → ∀ x ∈ xs, x.path.length = least) :
    (judge.sift fresh xs).1 = keepAfter (selector.wantsAmong scope ties) earlier xs ∧
      (judge.sift fresh xs).2.Tracks fresh scope selector ties (earlier ++ xs) least := by
  induction xs generalizing judge earlier with
  | nil => exact ⟨rfl, by rwa [List.append_nil]⟩
  | cons x xs ih =>
    have hx (hs : selector.isShortest = true) : x.path.length = least := hxs hs x (by simp)
    obtain ⟨hanswer, hnext⟩ := h.offer fun hs => Nat.le_of_eq (hx hs).symm
    obtain ⟨hlater, hlast⟩ := ih (hnext.mono fun hs => Nat.le_of_eq (hx hs)) fun hs y hy =>
      hxs hs y (by simp [hy])
    rw [List.append_assoc] at hlast
    refine ⟨?_, hlast⟩
    rw [Judge.sift, keepAfter, ← hanswer, ← hlater]

theorem endLength (h : judge.Tracks fresh scope selector ties earlier least) :
    (judge.endLength least).Tracks fresh scope selector ties earlier (least + 1) where
  scope_eq := by rw [← h.scope_eq]; cases judge <;> rfl
  untouched := h.untouched
  controller ends := by
    have hend := (h.controller ends).endLength (h.controller ends).bounded
    rw [Nat.max_eq_right (Nat.le_succ least)] at hend
    cases judge with
    | overall c => exact hend
    | perPair cs =>
      have hfresh : fresh.endLength least = fresh := by simp [Controller.endLength, h.untouched]
      have hget : (Judge.endLength least (.perPair cs)).controller fresh ends =
          ((cs.get? ends).map (·.endLength least)).getD (fresh.endLength least) := by
        rw [hfresh]
        exact congrArg (·.getD fresh) (Assoc.get?_map cs (·.endLength least) ends)
      rw [hget]
      cases hcs : cs.get? ends with
      | none => simpa [Judge.controller, hcs] using hend
      | some c => simpa [Judge.controller, hcs] using hend
  nodup := by rw [pairs_endLength]; exact h.nodup
  met ends hends := h.met ends (by rwa [pairs_endLength] at hends)

/-- Where the choice has ended for every pair of endpoints that there can be, it has ended for each. As
many pairs as there can be have a controller, so all of them have one. -/
theorem terminated (h : judge.Tracks fresh scope selector ties earlier least)
    {pool : List (VertexId × VertexId)}
    (hearlier : scope = .perEndpoints → ∀ x ∈ earlier, x.path.ends ∈ pool)
    (hdone : judge.isDone = true ∨ judge.isDoneForAll pool.length = true)
    {ends : VertexId × VertexId} (hends : scope = .perEndpoints → ends ∈ pool) :
    (judge.controller fresh ends).terminated = true := by
  cases judge with
  | overall c => exact hdone.resolve_right nofun
  | perPair cs =>
    have hscope : scope = .perEndpoints := h.scope_eq.symm
    have hall : (!cs.isEmpty && cs.all (·.2.terminated) && decide (pool.length ≤ cs.length)) = true :=
      hdone.resolve_left nofun
    simp only [Bool.and_eq_true, List.all_eq_true, decide_eq_true_eq] at hall
    have hsub : cs.keys ⊆ pool := fun a ha => by
      obtain ⟨x, hx, rfl⟩ := h.met a ha
      exact hearlier hscope x hx
    have hperm : cs.keys.Perm pool :=
      ((h.nodup : cs.keys.Nodup).subperm hsub).perm_of_length_le
        (by simpa [pairs, Assoc.keys] using hall.2)
    have hkey : cs.has ends = true :=
      (cs.has_iff_mem_keys ends).mpr (hperm.mem_iff.mpr (hends hscope))
    obtain ⟨c, hc⟩ := Option.isSome_iff_exists.mp hkey
    simp only [Judge.controller, hc, Option.getD_some]
    exact hall.1.2 _ (Assoc.mem_of_get? hc)

theorem keepAfter_eq_nil (h : judge.Tracks fresh scope selector ties earlier least)
    {xs : List Solution}
    (hxs : ∀ x ∈ xs, (judge.controller fresh x.path.ends).terminated = true ∧
      (selector.isShortest = true → least ≤ x.path.length)) :
    keepAfter (selector.wantsAmong scope ties) earlier xs = [] := by
  refine GraphPatterns.keepAfter_eq_nil fun pre x post hx => ?_
  obtain ⟨ht, hlong⟩ := hxs x (by simp [hx])
  have hdone := (h.controller x.path.ends).done ht x.path.length hlong
  rw [← Bool.not_eq_true]
  intro hwants
  rw [Selector.wantsAmong, SearchScope.lengths_append] at hwants
  rw [Selector.wants_append _ hwants] at hdone
  cases hdone

end Tracks

end Judge

end GraphPatterns
