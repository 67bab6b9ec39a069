/-
What a selector selects from a list of results when it counts those of each pair of endpoints by
themselves. `Selector.selectPerPair` says it for the list as a whole: a result is selected if the selector
selects it from the results with its endpoints. Deciding on each result when it is found, in view of those
before it with the same endpoints, comes to the same (`Selector.keep_perPair`).

Results may be equal, so each is told apart by its place in the list.
-/
import GraphPatterns.Proofs.Selection
import Mathlib.Data.List.Nodup

namespace GraphPatterns

variable {α κ : Type}

/-! ## Lists without repeats -/

theorem mem_of_mem_keepAfter {wants : List α → α → Bool} {earlier xs : List α} {x : α}
    (h : x ∈ keepAfter wants earlier xs) : x ∈ xs := by
  induction xs generalizing earlier with
  | nil => cases h
  | cons y xs ih =>
    rw [keepAfter] at h
    split at h
    · rcases List.mem_cons.mp h with rfl | h
      · exact List.mem_cons_self
      · exact List.mem_cons_of_mem _ (ih h)
    · exact List.mem_cons_of_mem _ (ih h)

/-- In a list without repeats an element is kept if it is wanted at its place. -/
theorem mem_keep_iff {wants : List α → α → Bool} {pre post : List α} {x : α}
    (h : (pre ++ x :: post).Nodup) : x ∈ keep wants (pre ++ x :: post) ↔ wants pre x = true := by
  obtain ⟨-, hpost, hcross⟩ := List.nodup_append.mp h
  have hpre : x ∉ keepAfter wants [] pre := fun hmem =>
    hcross x (mem_of_mem_keepAfter hmem) x (by simp) rfl
  have hlater : x ∉ keepAfter wants (pre ++ [x]) post := fun hmem =>
    (List.nodup_cons.mp hpost).1 (mem_of_mem_keepAfter hmem)
  rw [keep, keepAfter_append, List.mem_append, List.nil_append, keepAfter]
  by_cases hw : wants pre x = true
  · simp [hw]
  · simp [hw, hpre, hlater]

theorem nodup_zipIdx (xs : List α) : xs.zipIdx.Nodup := by
  refine List.Nodup.of_map Prod.snd ?_
  rw [List.zipIdx_map_snd]
  exact List.nodup_range'

/-! ## Selection for each pair -/

namespace Selector

variable [DecidableEq κ]

/-- In a list in order of length without repeats an element is wanted in view of those before it with its
endpoints if the selector selects it from all those with its endpoints. -/
theorem wants_iff_mem_select {selector : Selector} (hp : selector.isShortest = true) (ties : TiePolicy)
    (length : α → Nat) (ends : α → κ) {pre post : List α} {x : α}
    (hsorted : (pre ++ x :: post).Pairwise fun a b => length a ≤ length b)
    (hnodup : (pre ++ x :: post).Nodup) :
    selector.wants ties ((pre.filter (ends · = ends x)).map length) (length x) = true ↔
      x ∈ selector.select ties length ((pre ++ x :: post).filter (ends · = ends x)) := by
  have hamong : (pre ++ x :: post).filter (ends · = ends x) =
      pre.filter (ends · = ends x) ++ x :: post.filter (ends · = ends x) := by simp
  have horder : selector.ordered length ((pre ++ x :: post).filter (ends · = ends x)) =
      (pre ++ x :: post).filter (ends · = ends x) := by
    rw [ordered, if_pos hp, sortedBy_of_pairwise length (hsorted.filter _)]
  have hdistinct := hnodup.filter (ends · = ends x)
  rw [← keep_wants, horder, hamong]
  rw [hamong] at hdistinct
  exact (@mem_keep_iff _ (fun earlier x => selector.wants ties (earlier.map length) (length x)) _ _ _
    hdistinct).symm

variable [DecidableEq α]

/-- What a selector selects when it counts the results of each pair of endpoints by themselves. -/
def selectPerPair (selector : Selector) (ties : TiePolicy) (length : α → Nat) (ends : α → κ)
    (xs : List α) : List α :=
  match selector with
  | .all => xs
  | .any => keep (fun earlier x => earlier.countP (ends · = ends x) < 1) xs
  | .anyK k => keep (fun earlier x => earlier.countP (ends · = ends x) < k) xs
  | .anyShortest | .allShortest | .shortestK _ | .shortestGroups _ =>
    let placed := (sortedBy length xs).zipIdx
    let among (x : α × Nat) := placed.filter fun y => ends y.1 = ends x.1
    (placed.filter fun x => x ∈ selector.select ties (fun y => length y.1) (among x)).map (·.1)

theorem keep_shortestPerPair {selector : Selector} (hp : selector.isShortest = true) (ties : TiePolicy)
    {length : α → Nat} {ends : α → κ} {xs : List α}
    (hsorted : xs.Pairwise fun a b => length a ≤ length b) :
    keep (fun earlier x =>
        selector.wants ties ((earlier.filter (ends · = ends x)).map length) (length x)) xs =
      (xs.zipIdx.filter fun x => x ∈ selector.select ties (fun y => length y.1)
        (xs.zipIdx.filter fun y => ends y.1 = ends x.1)).map (·.1) := by
  have hplaced : xs.zipIdx.Pairwise fun a b => length a.1 ≤ length b.1 := by
    rwa [← List.zipIdx_map_fst 0 xs, List.pairwise_map] at hsorted
  have hkeep : keep (fun earlier x => selector.wants ties
      ((earlier.filter fun y => ends y.1 = ends x.1).map fun y => length y.1) (length x.1)) xs.zipIdx =
      xs.zipIdx.filter fun x => x ∈ selector.select ties (fun y => length y.1)
        (xs.zipIdx.filter fun y => ends y.1 = ends x.1) := by
    refine keepAfter_eq_filter fun pre x post hx => ?_
    have hiff := wants_iff_mem_select hp ties (fun y : α × Nat => length y.1) (fun y => ends y.1)
      (hx ▸ hplaced) (hx ▸ nodup_zipIdx xs)
    rw [Bool.eq_iff_iff, hx, List.nil_append, hiff, decide_eq_true_iff]
  have hmap := map_keepAfter Prod.fst (fun earlier x =>
    selector.wants ties ((earlier.filter (ends · = ends x)).map length) (length x)) [] xs.zipIdx
  rw [List.zipIdx_map_fst] at hmap
  rw [← hkeep, keep, keep, ← List.map_nil, ← hmap]
  refine congrArg (List.map Prod.fst) (keepAfter_congr fun pre x _ _ => ?_)
  rw [List.filter_map, List.map_map]
  rfl

/-- **A selector that decides on each result when it is found selects for each pair of endpoints what it
selects from all results with these endpoints.** -/
theorem keep_perPair (selector : Selector) (ties : TiePolicy) (length : α → Nat) (ends : α → κ)
    (xs : List α) :
    keep (fun earlier x =>
        selector.wants ties ((earlier.filter (ends · = ends x)).map length) (length x))
      (selector.ordered length xs) = selector.selectPerPair ties length ends xs := by
  have hsorted := pairwise_sortedBy length xs
  cases selector with
  | all =>
    refine (keepAfter_eq_filter (p := fun _ => true) fun _ _ _ _ => rfl).trans ?_
    exact List.filter_true _
  | any =>
    refine keepAfter_congr fun pre x _ _ => ?_
    simp [wants, List.countP_eq_length_filter]
  | anyK k =>
    refine keepAfter_congr fun pre x _ _ => ?_
    simp [wants, List.countP_eq_length_filter]
  | anyShortest | allShortest | shortestK k | shortestGroups k =>
    exact keep_shortestPerPair rfl ties hsorted

end Selector

end GraphPatterns
