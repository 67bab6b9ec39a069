/-
The rounds of a search for shortest paths, taken together. A round offers the paths of one length
(`Program.length_offered`), and they are those of that length among all paths (`offered_eq_filter`). When
the search ends before its last round, no later round would find anything that is wanted: the choice has
ended, or no thread was blocked and there is no longer path. So the rounds find what is wanted among the
paths of all lengths, from the least length on (`Program.rounds_eq`).
-/
import GraphPatterns.Proofs.Judging
import GraphPatterns.Proofs.Limit
import Mathlib.Data.List.ProdSigma

namespace GraphPatterns

namespace Program

variable {p : Program} {env : Env} {base : Bindings}

/-! ## The limit of a round -/

/-- What a round offers: the candidates among the paths with at most `limit` edges. -/
def offered (p : Program) (env : Env) (base : Bindings) (limit : Nat) : List Solution :=
  p.candidates env (p.outcomes env base limit)

/-- With nothing blocked, a larger limit changes no outcome but for the room that is left. -/
theorem outcomes_add {limit : Nat} (k : Nat)
    (h : Outcome.anyBlocked (p.outcomes env base limit) = false) :
    p.outcomes env base (limit + k) = (p.outcomes env base limit).map (·.deepen k) := by
  rw [outcomes, outcomes, List.map_flatMap]
  refine List.flatMap_congr fun v hv =>
    Choice.outcomes_deepen (c := .resume (.start v base limit p.idle)) k fun hb => ?_
  have : Outcome.anyBlocked (p.outcomes env base limit) = true :=
    Outcome.anyBlocked_iff.mpr (List.mem_flatMap.mpr ⟨v, hv, hb⟩)
  simp [h] at this

/-- The arrivals under the smaller limit are those under the larger one that leave enough room. -/
theorem arrivals_add (limit k : Nat) :
    (Outcome.arrivals (p.outcomes env base (limit + k))).filter (k ≤ ·.room) =
      (Outcome.arrivals (p.outcomes env base limit)).map (·.deepen k) := by
  simp only [outcomes, Outcome.arrivals_flatMap, List.filter_flatMap, List.map_flatMap]
  exact List.flatMap_congr fun v _ =>
    Choice.arrivals_deepen k (.resume (.start v base limit p.idle))

/-- Every edge of an arrival has taken some of the room. -/
theorem length_add_room {limit : Nat} {t : Thread}
    (h : t ∈ Outcome.arrivals (p.outcomes env base limit)) : t.walk.length + t.room = limit := by
  obtain ⟨v, -, ht⟩ := List.mem_flatMap.mp (Outcome.mem_arrivals.mp h)
  exact (Choice.invariant_limit env p limit).arrives
    (c := .resume (.start v base limit p.idle)) (Nat.zero_add _) ht

/-! ## Candidates -/

theorem candidates_plain (hp : p.selector.isShortest = false) (os : List Outcome) :
    p.candidates env os = (Outcome.arrivals os).filterMap (Search.solution? env p) := by
  refine List.filterMap_congr fun t _ => ?_
  simp [Search.candidate?, hp]

theorem candidates_shortest (hp : p.selector.isShortest = true) (os : List Outcome) :
    p.candidates env os =
      ((Outcome.arrivals os).filter (·.room = 0)).filterMap (Search.solution? env p) := by
  rw [List.filterMap_filter]
  refine List.filterMap_congr fun t _ => ?_
  by_cases h : t.room = 0 <;> simp [Search.candidate?, hp, h]

/-- A search that takes all lengths together does not look at the room that is left. -/
theorem candidates_deepen (k : Nat) (hp : p.selector.isShortest = false) (os : List Outcome) :
    p.candidates env (os.map (·.deepen k)) = p.candidates env os := by
  rw [candidates_plain hp, candidates_plain hp, Outcome.arrivals_map_deepen, List.filterMap_map]
  rfl

theorem candidates_deepen_nil {k : Nat} (hk : 0 < k) (hp : p.selector.isShortest = true)
    (os : List Outcome) : p.candidates env (os.map (·.deepen k)) = [] := by
  have hnone : ((Outcome.arrivals os).map (·.deepen k)).filter (·.room = 0) = [] := by
    refine List.filter_eq_nil_iff.mpr fun t ht => ?_
    obtain ⟨u, -, rfl⟩ := List.mem_map.mp ht
    have hroom : (u.deepen k).room ≠ 0 := by
      rw [Thread.room_deepen]
      omega
    simpa using hroom
  rw [candidates_shortest hp, Outcome.arrivals_map_deepen, hnone]
  rfl

/-- Where no thread was blocked, no longer path is offered. -/
theorem offered_add_nil {limit k : Nat} (hp : p.selector.isShortest = true)
    (h : Outcome.anyBlocked (p.outcomes env base limit) = false) (hk : 0 < k) :
    p.offered env base (limit + k) = [] := by
  rw [offered, outcomes_add k h, candidates_deepen_nil hk hp]

theorem length_offered {limit : Nat} (hp : p.selector.isShortest = true) {x : Solution}
    (hx : x ∈ p.offered env base limit) : x.path.length = limit := by
  rw [offered, candidates_shortest hp] at hx
  obtain ⟨t, ht, hx⟩ := List.mem_filterMap.mp hx
  obtain ⟨ht, hroom⟩ := List.mem_filter.mp ht
  have hlimit := length_add_room ht
  rw [Search.solution?_path hx, Walk.length_toPath]
  simp only [decide_eq_true_eq] at hroom
  omega

/-! ## All rounds -/

/-- Where there is no reason to go on to longer paths, nothing in a longer path is wanted. -/
theorem keepAfter_longer {judge : Judge} {scope : SearchScope} {ties : TiePolicy}
    {earlier : List Solution} {limit count : Nat} {pool : List (VertexId × VertexId)}
    (hp : p.selector.isShortest = true)
    (hpool : pool.length = (startVertices env p base).length * env.store.vertices.length)
    (h : judge.Tracks (Search.fresh env p) scope p.selector ties earlier (limit + 1))
    (hearlier : scope = .perEndpoints → ∀ x ∈ earlier, x.path.ends ∈ pool)
    (hlater : scope = .perEndpoints → ∀ l < limit + 1 + count, ∀ x ∈ p.offered env base l,
      x.path.ends ∈ pool)
    (hend : p.wantsLonger env base limit judge = false) :
    keepAfter (p.selector.wantsAmong scope ties) earlier
      ((List.range' (limit + 1) count).flatMap (p.offered env base)) = [] := by
  rw [wantsLonger, Bool.and_eq_false_iff, Bool.and_eq_false_iff, Bool.not_eq_false',
    Bool.not_eq_false', ← hpool] at hend
  rcases hend with hdone | hblocked
  -- The choice has ended for all endpoints that a longer path can have.
  · refine h.keepAfter_eq_nil fun x hx => ?_
    obtain ⟨l, hl, hx⟩ := List.mem_flatMap.mp hx
    obtain ⟨hlow, hhigh⟩ := List.mem_range'_1.mp hl
    refine ⟨h.terminated hearlier hdone fun hs => hlater hs l hhigh x hx, fun _ => ?_⟩
    rw [length_offered hp hx]
    exact hlow
  -- No thread was blocked, so there is no longer path.
  · have hnone : (List.range' (limit + 1) count).flatMap (p.offered env base) = [] := by
      refine List.flatMap_eq_nil_iff.mpr fun l hl => ?_
      obtain ⟨k, rfl⟩ : ∃ k, l = limit + (k + 1) :=
        ⟨l - (limit + 1), by have := (List.mem_range'_1.mp hl).1; omega⟩
      exact offered_add_nil hp hblocked (Nat.succ_pos k)
    rw [hnone]
    rfl

/-- **The rounds find what is wanted among the paths of all lengths, in order of length.** -/
theorem rounds_eq {scope : SearchScope} {ties : TiePolicy} {pool : List (VertexId × VertexId)}
    (hp : p.selector.isShortest = true)
    (hpool : pool.length = (startVertices env p base).length * env.store.vertices.length)
    {deeper limit : Nat} {judge : Judge} {earlier : List Solution}
    (h : judge.Tracks (Search.fresh env p) scope p.selector ties earlier limit)
    (hearlier : scope = .perEndpoints → ∀ x ∈ earlier, x.path.ends ∈ pool)
    (hlater : scope = .perEndpoints → ∀ l < limit + (deeper + 1), ∀ x ∈ p.offered env base l,
      x.path.ends ∈ pool) :
    (p.rounds env base deeper limit judge).1 = keepAfter (p.selector.wantsAmong scope ties) earlier
      ((List.range' limit (deeper + 1)).flatMap (p.offered env base)) := by
  -- Each round hands on a judge that tracks all that was offered before it.
  induction deeper generalizing limit judge earlier with
  | zero =>
    obtain ⟨hfound, -⟩ := h.sift fun _ x => length_offered hp
    rw [rounds]
    refine hfound.trans ?_
    simp [List.range'_one]
  | succ deeper ih =>
    obtain ⟨hfound, hsifted⟩ := h.sift fun _ x (hx : x ∈ p.offered env base limit) =>
      length_offered hp hx
    have hnext := hsifted.endLength
    have hoffered : scope = .perEndpoints → ∀ x ∈ earlier ++ p.offered env base limit,
        x.path.ends ∈ pool := fun hs x hx =>
      (List.mem_append.mp hx).elim (hearlier hs x) (hlater hs limit (by omega) x)
    have hlonger : scope = .perEndpoints → ∀ l < limit + 1 + (deeper + 1),
        ∀ x ∈ p.offered env base l, x.path.ends ∈ pool := fun hs l hl =>
      hlater hs l (by omega)
    rw [rounds, List.range'_succ, List.flatMap_cons, keepAfter_append]
    cases hw : p.wantsLonger env base limit (p.found env base limit judge).2 with
    | true => exact congrArg₂ (· ++ ·) hfound (ih hnext hoffered hlonger)
    | false =>
      rw [keepAfter_longer hp hpool hnext hoffered hlonger hw, List.append_nil]
      exact hfound

end Program

end GraphPatterns
