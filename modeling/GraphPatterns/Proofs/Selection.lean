/-
What a selector selects from a list of results. `Selector.select` says it for the list as a whole;
`Selector.wants` says it for one result, given the lengths of those before it. The two agree
(`Selector.keep_wants`), which is what lets a search decide on each result when it is found.

Results are sorted by length with a stable sort, so within a length they keep their order
(`filter_sortedBy`), and the sorted list is the classes of equal length one after the other
(`sortedBy_eq_flatMap`).
-/
import GraphPatterns.Config
import GraphPatterns.Pattern.Basic
import Mathlib.Data.List.Basic
import Mathlib.Data.List.Dedup

namespace GraphPatterns

variable {α β : Type}

/-! ## Keeping what is wanted -/

/-- The elements that are wanted in view of those before them, where some have gone before the list. -/
def keepAfter (wants : List α → α → Bool) : (earlier xs : List α) → List α
  | _, [] => []
  | earlier, x :: xs =>
    let later := keepAfter wants (earlier ++ [x]) xs
    if wants earlier x then x :: later else later

/-- The elements that are wanted in view of those before them. -/
def keep (wants : List α → α → Bool) (xs : List α) : List α := keepAfter wants [] xs

theorem keepAfter_append (wants : List α → α → Bool) (earlier xs ys : List α) :
    keepAfter wants earlier (xs ++ ys) =
      keepAfter wants earlier xs ++ keepAfter wants (earlier ++ xs) ys := by
  induction xs generalizing earlier with
  | nil => simp [keepAfter]
  | cons x xs ih =>
    simp only [List.cons_append, keepAfter, ih, List.append_assoc, List.nil_append]
    split <;> rfl

/-- Where it can be told from an element alone whether it is wanted, what is kept is a filter. -/
theorem keepAfter_eq_filter {wants : List α → α → Bool} {earlier xs : List α} {p : α → Bool}
    (h : ∀ pre x post, xs = pre ++ x :: post → wants (earlier ++ pre) x = p x) :
    keepAfter wants earlier xs = xs.filter p := by
  induction xs generalizing earlier with
  | nil => rfl
  | cons x xs ih =>
    have hx : wants earlier x = p x := by simpa using h [] x xs rfl
    have hxs : keepAfter wants (earlier ++ [x]) xs = xs.filter p := ih fun pre y post hy => by
      have := h (x :: pre) y post (by rw [hy]; rfl)
      rwa [List.append_assoc]
    rw [keepAfter, hxs, hx, List.filter_cons]

theorem keepAfter_eq_nil {wants : List α → α → Bool} {earlier xs : List α}
    (h : ∀ pre x post, xs = pre ++ x :: post → wants (earlier ++ pre) x = false) :
    keepAfter wants earlier xs = [] := by
  rw [keepAfter_eq_filter (p := fun _ => false) h, List.filter_false]

theorem keepAfter_congr {wants wants' : List α → α → Bool} {earlier xs : List α}
    (h : ∀ pre x post, xs = pre ++ x :: post → wants (earlier ++ pre) x = wants' (earlier ++ pre) x) :
    keepAfter wants earlier xs = keepAfter wants' earlier xs := by
  induction xs generalizing earlier with
  | nil => rfl
  | cons x xs ih =>
    have hx : wants earlier x = wants' earlier x := by simpa using h [] x xs rfl
    have hxs : keepAfter wants (earlier ++ [x]) xs = keepAfter wants' (earlier ++ [x]) xs :=
      ih fun pre y post hy => by
        have := h (x :: pre) y post (by rw [hy]; rfl)
        rwa [List.append_assoc]
    rw [keepAfter, keepAfter, hxs, hx]

theorem map_keepAfter (f : α → β) (wants : List β → β → Bool) (earlier xs : List α) :
    (keepAfter (fun earlier x => wants (earlier.map f) (f x)) earlier xs).map f =
      keepAfter wants (earlier.map f) (xs.map f) := by
  induction xs generalizing earlier with
  | nil => rfl
  | cons x xs ih =>
    have hxs := ih (earlier ++ [x])
    rw [List.map_append, List.map_singleton] at hxs
    simp only [keepAfter, List.map_cons]
    split
    · exact congrArg (f x :: ·) hxs
    · exact hxs

theorem keepAfter_lt_length (k : Nat) (earlier xs : List α) :
    keepAfter (fun earlier _ => decide (earlier.length < k)) earlier xs =
      xs.take (k - earlier.length) := by
  induction xs generalizing earlier with
  | nil => simp [keepAfter]
  | cons x xs ih =>
    have hxs := ih (earlier ++ [x])
    rw [List.length_append, List.length_singleton] at hxs
    rw [keepAfter, hxs]
    by_cases h : earlier.length < k
    · rw [if_pos (decide_eq_true h), show k - earlier.length = k - (earlier.length + 1) + 1 by omega,
        List.take_succ_cons]
    · rw [if_neg (by simp [h]), show k - earlier.length = 0 by omega,
        show k - (earlier.length + 1) = 0 by omega]
      rfl

/-! ## Sorting by length -/

section Sorting

variable (length : α → Nat)

/-- Some elements in order of length; those of one length stay in their order. -/
def sortedBy (xs : List α) : List α := xs.mergeSort fun a b => decide (length a ≤ length b)

theorem le_trans_length (a b c : α) (hab : decide (length a ≤ length b) = true)
    (hbc : decide (length b ≤ length c) = true) : decide (length a ≤ length c) = true := by
  simp only [decide_eq_true_eq] at hab hbc ⊢
  omega

theorem le_total_length (a b : α) :
    (decide (length a ≤ length b) || decide (length b ≤ length a)) = true := by
  simp only [Bool.or_eq_true, decide_eq_true_eq]
  omega

theorem pairwise_sortedBy (xs : List α) :
    (sortedBy length xs).Pairwise fun a b => length a ≤ length b :=
  (List.pairwise_mergeSort (le_trans_length length) (le_total_length length) xs).imp of_decide_eq_true

theorem perm_sortedBy (xs : List α) : (sortedBy length xs).Perm xs := List.mergeSort_perm ..

theorem sortedBy_of_pairwise {xs : List α} (h : xs.Pairwise fun a b => length a ≤ length b) :
    sortedBy length xs = xs :=
  List.mergeSort_of_pairwise (h.imp decide_eq_true)

/-- Sorting leaves the elements of one length in their order. -/
theorem filter_sortedBy (xs : List α) (n : Nat) :
    (sortedBy length xs).filter (length · = n) = xs.filter (length · = n) := by
  have hsub : (xs.filter (length · = n)).Sublist (sortedBy length xs) := by
    refine List.sublist_mergeSort (le_trans_length length) (le_total_length length) ?_
      List.filter_sublist
    refine List.pairwise_of_forall_mem_list fun a ha b hb => ?_
    have ha' := of_decide_eq_true (List.mem_filter.mp ha).2
    have hb' := of_decide_eq_true (List.mem_filter.mp hb).2
    simp only [decide_eq_true_eq]
    omega
  have hfilter := hsub.filter (length · = n)
  rw [List.filter_filter] at hfilter
  simp only [Bool.and_self] at hfilter
  exact (hfilter.eq_of_length (((perm_sortedBy length xs).filter _).length_eq).symm).symm

/-- The shortest elements of a list in order of length come first. -/
theorem eq_filter_append {xs : List α} (h : xs.Pairwise fun a b => length a ≤ length b) {n : Nat}
    (hlow : ∀ x ∈ xs, n ≤ length x) :
    xs = xs.filter (length · = n) ++ xs.filter (n < length ·) := by
  induction xs with
  | nil => rfl
  | cons x xs ih =>
    obtain ⟨hx, hxs⟩ := List.pairwise_cons.mp h
    have hle := hlow x (by simp)
    rcases Nat.lt_or_ge n (length x) with hlt | hge
    · have hnone : xs.filter (length · = n) = [] := by
        refine List.filter_eq_nil_iff.mpr fun y hy => ?_
        have := hx y hy
        simp only [decide_eq_true_eq]
        omega
      have hall : xs.filter (n < length ·) = xs := by
        refine List.filter_eq_self.mpr fun y hy => ?_
        have := hx y hy
        simp only [decide_eq_true_eq]
        omega
      have hne : length x ≠ n := by omega
      rw [List.filter_cons_of_neg (by simpa using hne), List.filter_cons_of_pos (by simpa using hlt),
        hnone, hall]
      rfl
    · have heq : length x = n := by omega
      rw [List.filter_cons_of_pos (by simpa using heq),
        List.filter_cons_of_neg (by simpa using hge), List.cons_append,
        ← ih hxs fun y hy => hlow y (by simp [hy])]

/-- A list in order of length is its classes of equal length, one after the other. -/
theorem eq_flatMap_of_pairwise {xs : List α} (h : xs.Pairwise fun a b => length a ≤ length b)
    {least count : Nat} (hlow : ∀ x ∈ xs, least ≤ length x)
    (hhigh : ∀ x ∈ xs, length x < least + count) :
    xs = (List.range' least count).flatMap fun n => xs.filter (length · = n) := by
  induction count generalizing xs least with
  | zero =>
    cases xs with
    | nil => rfl
    | cons x xs =>
      have := hlow x (by simp)
      have := hhigh x (by simp)
      omega
  | succ count ih =>
    have hsplit := eq_filter_append length h hlow
    have hrest : xs.filter (least < length ·) = (List.range' (least + 1) count).flatMap fun n =>
        (xs.filter (least < length ·)).filter (length · = n) := by
      refine ih (h.filter _) (fun x hx => of_decide_eq_true (List.mem_filter.mp hx).2)
        (fun x hx => ?_)
      have := hhigh x (List.mem_filter.mp hx).1
      omega
    rw [List.range'_succ, List.flatMap_cons]
    refine hsplit.trans (congrArg (_ ++ ·) (hrest.trans ?_))
    refine List.flatMap_congr fun n hn => ?_
    rw [List.filter_filter]
    refine List.filter_congr fun x _ => ?_
    have := (List.mem_range'_1.mp hn).1
    by_cases hx : length x = n
    · simp only [hx, decide_true, Bool.true_and, decide_eq_true_eq]
      omega
    · simp [hx]

/-- Sorting by length puts the classes of equal length one after the other. -/
theorem sortedBy_eq_flatMap {xs : List α} {least count : Nat} (hlow : ∀ x ∈ xs, least ≤ length x)
    (hhigh : ∀ x ∈ xs, length x < least + count) :
    sortedBy length xs =
      (List.range' least count).flatMap fun n => xs.filter (length · = n) := by
  have hmem (x : α) : x ∈ sortedBy length xs ↔ x ∈ xs := (perm_sortedBy length xs).mem_iff
  refine (eq_flatMap_of_pairwise length (pairwise_sortedBy length xs)
    (fun x hx => hlow x ((hmem x).mp hx)) (fun x hx => hhigh x ((hmem x).mp hx))).trans ?_
  exact List.flatMap_congr fun n _ => filter_sortedBy length xs n

theorem sortedBy_map (f : β → α) (xs : List β) :
    sortedBy length (xs.map f) = (sortedBy (fun x => length (f x)) xs).map f :=
  (List.map_mergeSort (f := f) fun _ _ _ _ => rfl).symm

end Sorting

/-! ## Selectors -/

namespace Selector

/-- Whether a result of the given length is wanted, in view of the lengths of the results before it.
Selectors of shortest paths are given the results in order of length. -/
def wants (selector : Selector) (ties : TiePolicy) (earlier : List Nat) (length : Nat) : Bool :=
  match selector with
  | .all => true
  | .any | .anyShortest => earlier.length < 1
  | .anyK k => earlier.length < k
  | .allShortest => earlier.head?.all (· == length)
  | .shortestK k =>
    earlier.length < k || (0 < k && ties == .includeAll && earlier[k - 1]? == some length)
  | .shortestGroups k => (earlier ++ [length]).dedup.length ≤ k

/-- The order in which a selector is given the results. -/
def ordered (selector : Selector) (length : α → Nat) (xs : List α) : List α :=
  if selector.isShortest then sortedBy length xs else xs

/-- What a selector selects from all results. -/
def select (selector : Selector) (ties : TiePolicy) (length : α → Nat) (xs : List α) : List α :=
  let sorted := sortedBy length xs
  match selector with
  | .all => xs
  | .any => xs.take 1
  | .anyK k => xs.take k
  | .anyShortest => sorted.take 1
  | .allShortest => sorted.filter fun x => xs.all fun y => length x ≤ length y
  | .shortestK k =>
    match ties with
    | .truncate => sorted.take k
    | .includeAll =>
      if k = 0 then []
      else
        match sorted[k - 1]? with
        | some last => sorted.filter (length · ≤ length last)
        | none => sorted
  | .shortestGroups k =>
    sorted.filter fun x => length x ∈ ((sorted.map length).dedup.take k)

theorem length_dedup_le {ms ns : List Nat} (h : ms ⊆ ns) : ms.dedup.length ≤ ns.dedup.length := by
  refine (List.nodup_dedup ms).length_le_of_subset fun m hm => ?_
  exact List.mem_dedup.mpr (h (List.mem_dedup.mp hm))

/-- A further length adds one to the number of different lengths, unless it is there already. -/
theorem length_dedup_append (ns : List Nat) (n : Nat) :
    (ns ++ [n]).dedup.length = if n ∈ ns then ns.dedup.length else ns.dedup.length + 1 := by
  have hperm : (ns ++ [n]).dedup.Perm (n :: ns).dedup := (List.perm_append_singleton n ns).dedup
  rw [hperm.length_eq]
  split
  · next h => rw [List.dedup_cons_of_mem h]
  · next h => rw [List.dedup_cons_of_notMem h, List.length_cons]

theorem wants_append {selector : Selector} {ties : TiePolicy} {earlier : List Nat} (more : List Nat)
    {n : Nat} (h : selector.wants ties (earlier ++ more) n = true) :
    selector.wants ties earlier n = true := by
  cases selector with
  | all => rfl
  | any | anyShortest | anyK k =>
    simp only [wants, List.length_append, decide_eq_true_eq] at h ⊢
    omega
  | allShortest =>
    cases earlier with
    | nil => rfl
    | cons m earlier => exact h
  | shortestK k =>
    simp only [wants, List.length_append, Bool.or_eq_true, decide_eq_true_eq] at h ⊢
    rcases h with h | h
    · exact .inl (by omega)
    · rcases Nat.lt_or_ge earlier.length k with hlt | hge
      · exact .inl hlt
      · refine .inr ?_
        simp only [Bool.and_eq_true, decide_eq_true_eq, beq_iff_eq] at h ⊢
        rw [List.getElem?_append_left (by omega)] at h
        exact h
  | shortestGroups k =>
    simp only [wants, decide_eq_true_eq] at h ⊢
    refine Nat.le_trans (length_dedup_le fun m hm => ?_) h
    simp only [List.mem_append] at hm ⊢
    exact hm.imp_left .inl

/-- What is not wanted is not wanted when it is longer. -/
theorem wants_of_longer {selector : Selector} {ties : TiePolicy} {earlier : List Nat} {n m : Nat}
    (hn : ∀ a ∈ earlier, a ≤ n) (hnm : n ≤ m) (h : selector.wants ties earlier m = true) :
    selector.wants ties earlier n = true := by
  cases selector with
  | all | any | anyShortest | anyK k => exact h
  | allShortest =>
    cases earlier with
    | nil => rfl
    | cons a earlier =>
      have ha := hn a (by simp)
      simp only [wants, List.head?_cons, Option.all_some, beq_iff_eq] at h ⊢
      omega
  | shortestK k =>
    simp only [wants, Bool.or_eq_true, Bool.and_eq_true, decide_eq_true_eq, beq_iff_eq] at h ⊢
    refine h.imp_right fun ⟨hk, hlast⟩ => ⟨hk, ?_⟩
    have ha := hn m (List.mem_of_getElem? hlast)
    rw [hlast, Nat.le_antisymm ha hnm]
  | shortestGroups k =>
    simp only [wants, decide_eq_true_eq, length_dedup_append] at h ⊢
    split
    · split at h <;> omega
    · next hnot =>
      rw [if_neg fun hm => hnot ?_] at h
      · exact h
      · rwa [Nat.le_antisymm hnm (hn m hm)]

/-- A selector that takes all lengths together does not look at the length. -/
theorem wants_eq_of_not_isShortest {selector : Selector} (h : selector.isShortest = false)
    (ties : TiePolicy) (earlier : List Nat) (n m : Nat) :
    selector.wants ties earlier n = selector.wants ties earlier m := by
  cases selector with
  | all | any | anyK k => rfl
  | allShortest | anyShortest | shortestK k | shortestGroups k => cases h

/-- Once a result is not wanted, no later one is wanted that is at least as long. -/
theorem not_wants_later {selector : Selector} {ties : TiePolicy} {earlier : List Nat} {n m : Nat}
    (h : selector.wants ties earlier n = false)
    (hn : selector.isShortest = true → (∀ a ∈ earlier, a ≤ n) ∧ n ≤ m) :
    selector.wants ties earlier m = false := by
  rw [← Bool.not_eq_true]
  intro hm
  cases hs : selector.isShortest with
  | true =>
    obtain ⟨hbound, hle⟩ := hn hs
    rw [wants_of_longer hbound hle hm] at h
    cases h
  | false =>
    rw [wants_eq_of_not_isShortest hs ties earlier n m, hm] at h
    cases h

variable {length : α → Nat} {sorted : List α}

/-- The shortest ones of a list in order of length are those as long as the first one. -/
theorem keep_allShortest (ties : TiePolicy)
    (h : sorted.Pairwise fun a b => length a ≤ length b) :
    keep (fun earlier x => Selector.allShortest.wants ties (earlier.map length) (length x)) sorted =
      sorted.filter fun x => sorted.all fun y => length x ≤ length y := by
  refine keepAfter_eq_filter fun pre x post hx => ?_
  subst hx
  rw [Bool.eq_iff_iff]
  cases pre with
  | nil =>
    simp only [wants, List.nil_append, List.map_nil, List.head?_nil, Option.all_none, true_iff,
      List.all_eq_true, decide_eq_true_eq]
    intro y hy
    rcases List.mem_cons.mp hy with rfl | hy
    · exact Nat.le_refl _
    · exact (List.pairwise_cons.mp h).1 y hy
  | cons first pre =>
    have hfirst := (List.pairwise_cons.mp h).1
    simp only [wants, List.nil_append, List.map_cons, List.head?_cons, Option.all_some, beq_iff_eq,
      List.all_eq_true, decide_eq_true_eq]
    constructor
    · intro heq y hy
      rw [← heq]
      rcases List.mem_cons.mp hy with rfl | hy
      · exact Nat.le_refl _
      · exact hfirst y hy
    · intro hall
      have hle := hall first (by simp)
      have hge := hfirst x (by simp)
      omega

/-- With ties, the `k` shortest ones of a list in order of length are those no longer than the `k`-th. -/
theorem keep_includeAll (k : Nat) (h : sorted.Pairwise fun a b => length a ≤ length b) :
    keep (fun earlier x => (Selector.shortestK k).wants .includeAll (earlier.map length) (length x))
      sorted =
      if k = 0 then []
      else
        match sorted[k - 1]? with
        | some last => sorted.filter (length · ≤ length last)
        | none => sorted := by
  by_cases hk : k = 0
  · rw [if_pos hk]
    refine keepAfter_eq_nil fun pre x post _ => ?_
    simp [wants, hk]
  · rw [if_neg hk]
    split
    · next last hlast =>
      refine keepAfter_eq_filter fun pre x post hx => ?_
      subst hx
      obtain ⟨-, hpost, hcross⟩ := List.pairwise_append.mp h
      rw [Bool.eq_iff_iff]
      simp only [wants, List.nil_append, List.length_map, Bool.or_eq_true, decide_eq_true_eq,
        Bool.and_eq_true, beq_iff_eq, List.getElem?_map]
      rcases Nat.lt_or_ge pre.length k with hlt | hge
      · -- The `k`-th one is not before this one.
        rw [List.getElem?_append_right (by omega)] at hlast
        refine iff_of_true (.inl hlt) ?_
        rcases List.mem_cons.mp (List.mem_of_getElem? hlast) with rfl | hmem
        · exact Nat.le_refl _
        · exact (List.pairwise_cons.mp hpost).1 last hmem
      · rw [List.getElem?_append_left (by omega)] at hlast
        have hle := hcross last (List.mem_of_getElem? hlast) x (by simp)
        rw [hlast]
        simp only [Option.map_some, Option.some.injEq]
        constructor
        · rintro (hlt | ⟨-, heq⟩) <;> omega
        · exact fun hx => .inr ⟨⟨by omega, trivial⟩, by omega⟩
    · next hnone =>
      refine (keepAfter_eq_filter (p := fun _ => true) fun pre x post hx => ?_).trans
        (List.filter_true _)
      have hlen : sorted.length ≤ k - 1 := List.getElem?_eq_none_iff.mp hnone
      rw [hx, List.length_append, List.length_cons] at hlen
      simp only [wants, List.nil_append, List.length_map, Bool.or_eq_true, decide_eq_true_eq]
      exact .inl (by omega)

/-- Being among the first `k` of different numbers in order means that there are no more than `k` up
to it. -/
theorem mem_take_iff {ns : List Nat} (h : ns.Pairwise (· < ·)) {n : Nat} (hn : n ∈ ns) (k : Nat) :
    n ∈ ns.take k ↔ (ns.filter (· ≤ n)).length ≤ k := by
  induction ns generalizing k with
  | nil => cases hn
  | cons m ns ih =>
    obtain ⟨hm, hns⟩ := List.pairwise_cons.mp h
    rcases List.mem_cons.mp hn with rfl | hn
    · have hnone : ns.filter (· ≤ n) = [] := by
        refine List.filter_eq_nil_iff.mpr fun b hb => ?_
        have := hm b hb
        simp only [decide_eq_true_eq]
        omega
      rw [List.filter_cons_of_pos (by simp), hnone, List.length_singleton]
      cases k with
      | zero => simp
      | succ k => simp
    · have hlt := hm n hn
      rw [List.filter_cons_of_pos (by simp only [decide_eq_true_eq]; omega), List.length_cons]
      cases k with
      | zero => simp
      | succ k =>
        have hne : n ≠ m := by omega
        simp only [List.take_succ_cons, List.mem_cons, hne, false_or, ih hns hn k]
        omega

theorem keep_shortestGroups (k : Nat) (ties : TiePolicy)
    (h : sorted.Pairwise fun a b => length a ≤ length b) :
    keep (fun earlier x => (Selector.shortestGroups k).wants ties (earlier.map length) (length x))
      sorted =
      sorted.filter fun x => length x ∈ ((sorted.map length).dedup.take k) := by
  have hlengths : (sorted.map length).dedup.Pairwise (· < ·) := by
    have hle : (sorted.map length).dedup.Pairwise (· ≤ ·) :=
      (List.pairwise_map.mpr h).sublist (List.dedup_sublist _)
    exact hle.imp₂ (fun a b hab hne => Nat.lt_of_le_of_ne hab hne) (List.nodup_dedup _)
  refine keepAfter_eq_filter fun pre x post hx => ?_
  have hmem : length x ∈ (sorted.map length).dedup := by simp [hx]
  rw [Bool.eq_iff_iff]
  simp only [wants, List.nil_append, decide_eq_true_eq]
  rw [mem_take_iff hlengths hmem]
  -- Up to this one, the lengths are those before it and its own.
  have hperm : (pre.map length ++ [length x]).dedup.Perm
      ((sorted.map length).dedup.filter (· ≤ length x)) := by
    refine (List.perm_ext_iff_of_nodup (List.nodup_dedup _)
      ((List.nodup_dedup _).filter _)).mpr fun n => ?_
    subst hx
    obtain ⟨-, hpost, hcross⟩ := List.pairwise_append.mp h
    simp only [List.mem_dedup, List.mem_filter, List.mem_append, List.mem_map, List.mem_cons,
      List.not_mem_nil, or_false, decide_eq_true_eq]
    constructor
    · rintro (⟨y, hy, rfl⟩ | rfl)
      · exact ⟨⟨y, .inl hy, rfl⟩, hcross y hy x (by simp)⟩
      · exact ⟨⟨x, .inr (.inl rfl), rfl⟩, Nat.le_refl _⟩
    · rintro ⟨⟨y, hy | rfl | hy, rfl⟩, hle⟩
      · exact .inl ⟨y, hy, rfl⟩
      · exact .inr rfl
      · exact .inr (Nat.le_antisymm hle ((List.pairwise_cons.mp hpost).1 y hy))
  rw [hperm.length_eq]

theorem ordered_map (selector : Selector) (length : β → Nat) (f : α → β) (xs : List α) :
    selector.ordered length (xs.map f) = (selector.ordered (fun x => length (f x)) xs).map f := by
  rw [ordered, ordered, sortedBy_map]
  split <;> rfl

/-- **A selector that decides on each result when it is found selects what it selects from all of
them.** -/
theorem keep_wants (selector : Selector) (ties : TiePolicy) (length : α → Nat) (xs : List α) :
    keep (fun earlier x => selector.wants ties (earlier.map length) (length x))
      (selector.ordered length xs) = selector.select ties length xs := by
  have hsorted := pairwise_sortedBy length xs
  have htake (k : Nat) (ys : List α) :
      keep (fun earlier _ => decide ((earlier.map length).length < k)) ys = ys.take k := by
    simp only [List.length_map]
    exact keepAfter_lt_length k [] ys
  cases selector with
  | all =>
    refine (keepAfter_eq_filter (p := fun _ => true) fun _ _ _ _ => rfl).trans ?_
    exact List.filter_true _
  | any => exact htake 1 xs
  | anyK k => exact htake k xs
  | anyShortest => exact htake 1 _
  | allShortest =>
    refine (keep_allShortest ties hsorted).trans (List.filter_congr fun x _ => ?_)
    exact (perm_sortedBy length xs).all_eq
  | shortestK k =>
    cases ties with
    | includeAll => exact keep_includeAll k hsorted
    | truncate =>
      refine Eq.trans (keepAfter_congr fun pre x _ _ => ?_) (htake k _)
      simp [wants]
  | shortestGroups k => exact keep_shortestGroups k ties hsorted

theorem select_map (selector : Selector) (ties : TiePolicy) (length : β → Nat) (f : α → β)
    (xs : List α) :
    selector.select ties length (xs.map f) =
      (selector.select ties (fun x => length (f x)) xs).map f := by
  have hmap := map_keepAfter f (fun earlier y =>
    selector.wants ties (earlier.map length) (length y)) []
    (selector.ordered (fun x => length (f x)) xs)
  rw [← keep_wants, ← keep_wants, ordered_map, keep, keep, ← List.map_nil, ← hmap]
  refine congrArg (List.map f) (keepAfter_congr fun pre x _ _ => ?_)
  rw [List.map_map]
  rfl

end Selector

end GraphPatterns
