/-
The lengths that are computed for a program hold for every thread of a search. The greatest length limits
the edges that a match may have (`PathExpr.boundsHold`), unless it is cut off at what a word can hold; a
thread never has more (`PathPattern.length_le_maxLength`) and one at an edge has not yet used them up
(`PathPattern.length_lt_maxLength`).
-/
import GraphPatterns.Pattern.Validation
import GraphPatterns.Proofs.Lengths
import GraphPatterns.Proofs.Stacks
import GraphPatterns.Proofs.Validity

namespace GraphPatterns

/-! ## The greatest length of a pattern -/

theorem mostRepetitions_of_isOrdered {q : Quantifier} (hq : q.IsOrdered) {upper : Nat}
    (h : q.upper = some upper) : mostRepetitions q.lower q.upper = upper := by
  rw [h, mostRepetitions, if_pos (hq upper h)]

theorem saturate_mono {n m : Nat} (h : n ≤ m) : saturate n ≤ saturate m := min_le_min_left _ h

theorem saturate_of_lt {n : Nat} (h : saturate n < Number.maxWord) : saturate n = n := by
  unfold saturate at h ⊢
  omega

/-- What is computed of the length of something: the least length is no more than the greatest, and the
greatest limits the edges, unless it may be cut off. -/
structure BoundsHold (bounds : Nat × Option Nat) (most : ℕ∞) : Prop where
  ordered : ∀ m, bounds.2 = some m → bounds.1 ≤ m
  most : ∀ m, bounds.2 = some m → m < Number.maxWord → most ≤ m

namespace BoundsHold

variable {a b : Nat × Option Nat} {most most' : ℕ∞}

theorem leastLower (h : BoundsHold a most) : BoundsHold (leastLower a) most where
  ordered m hm := (leastLower_le a).trans (h.ordered m hm)
  most := h.most

theorem seq (h : BoundsHold a most) (h' : BoundsHold b most') :
    BoundsHold (saturate (a.1 + b.1), addUpper a.2 b.2) (most + most') := by
  have hsum {m : Nat} (hm : addUpper a.2 b.2 = some m) :
      ∃ k l, a.2 = some k ∧ b.2 = some l ∧ m = saturate (k + l) := by
    unfold addUpper at hm
    split at hm
    · next k l hk hl => exact ⟨k, l, hk, hl, (Option.some.inj hm).symm⟩
    · cases hm
  refine ⟨fun m hm => ?_, fun m hm hlt => ?_⟩
  · obtain ⟨k, l, hk, hl, rfl⟩ := hsum hm
    exact saturate_mono (Nat.add_le_add (h.ordered k hk) (h'.ordered l hl))
  · obtain ⟨k, l, hk, hl, rfl⟩ := hsum hm
    have hsame := saturate_of_lt hlt
    rw [hsame] at hlt ⊢
    rw [Nat.cast_add]
    exact add_le_add (h.most k hk (by omega)) (h'.most l hl (by omega))

theorem alternation (h : BoundsHold a most)
    (h' : ∀ m, b.2 = some m → m < Number.maxWord → most' ≤ m) :
    BoundsHold (min a.1 b.1, maxUpper a.2 b.2) (max most most') := by
  have hmax {m : Nat} (hm : maxUpper a.2 b.2 = some m) :
      ∃ k l, a.2 = some k ∧ b.2 = some l ∧ m = max k l := by
    unfold maxUpper at hm
    split at hm
    · next k l hk hl => exact ⟨k, l, hk, hl, (Option.some.inj hm).symm⟩
    · cases hm
  refine ⟨fun m hm => ?_, fun m hm hlt => ?_⟩
  · obtain ⟨k, l, hk, -, rfl⟩ := hmax hm
    exact (Nat.min_le_left _ _).trans ((h.ordered k hk).trans (Nat.le_max_left k l))
  · obtain ⟨k, l, hk, hl, rfl⟩ := hmax hm
    obtain ⟨hklt, hllt⟩ := max_lt_iff.mp hlt
    exact max_le ((h.most k hk hklt).trans (Nat.cast_le.mpr (Nat.le_max_left k l)))
      ((h' l hl hllt).trans (Nat.cast_le.mpr (Nat.le_max_right k l)))

/-- Nothing is repeated, or something that has no edges, or both bounds are multiplied. -/
theorem repeated (h : BoundsHold a most) {q : Quantifier} (hq : q.IsOrdered) :
    BoundsHold (q.lengthBounds a) (mostRepetitions q.lower q.upper * most) := by
  have hzero : a.2 = some 0 ∨ q.upper = some 0 → a.1 * q.lower = 0 ∧
      mostRepetitions q.lower q.upper * most = 0 := by
    rintro (ha | hu)
    · have hleast := h.ordered 0 ha
      have hmost : most ≤ (0 : Nat) := h.most 0 ha (by decide)
      rw [Nat.cast_zero, nonpos_iff_eq_zero] at hmost
      rw [Nat.le_zero.mp hleast, hmost, Nat.zero_mul, mul_zero]
      exact ⟨rfl, rfl⟩
    · rw [mostRepetitions_of_isOrdered hq hu, Nat.le_zero.mp (hq 0 hu)]
      simp
  have hproduct {m : Nat} (hm : (q.lengthBounds a).2 = some m) :
      m = 0 ∧ (a.2 = some 0 ∨ q.upper = some 0) ∨
        ∃ k u, a.2 = some k ∧ 0 < k ∧ q.upper = some u ∧ 0 < u ∧ m = saturate (k * u) := by
    simp only [Quantifier.lengthBounds] at hm
    split at hm
    · next ha => exact .inl ⟨(Option.some.inj hm).symm, .inl ha⟩
    · next hu _ => exact .inl ⟨(Option.some.inj hm).symm, .inr hu⟩
    · next k u hk0 hu0 hk hu =>
      exact .inr ⟨k, u, hk, Nat.pos_of_ne_zero hk0, hu, Nat.pos_of_ne_zero hu0,
        (Option.some.inj hm).symm⟩
    · cases hm
  refine ⟨fun m hm => ?_, fun m hm hlt => ?_⟩
  · change saturate (a.1 * q.lower) ≤ m
    rcases hproduct hm with ⟨rfl, hnone⟩ | ⟨k, u, hk, -, hu, -, rfl⟩
    · rw [(hzero hnone).1]
      exact saturate_le 0
    · exact saturate_mono (Nat.mul_le_mul (h.ordered k hk) (hq u hu))
  · rcases hproduct hm with ⟨rfl, hnone⟩ | ⟨k, u, hk, hkpos, hu, hupos, rfl⟩
    · exact (hzero hnone).2.le
    · have hsame := saturate_of_lt hlt
      rw [hsame] at hlt ⊢
      have hklt : k < Number.maxWord := (Nat.le_mul_of_pos_right k hupos).trans_lt hlt
      rw [mostRepetitions_of_isOrdered hq hu, mul_comm, Nat.cast_mul]
      exact mul_le_mul' (h.most k hk hklt) le_rfl

end BoundsHold

mutual

/-- **The bounds that are computed for a pattern hold.** -/
theorem PathExpr.boundsHold : ∀ (x : PathExpr), (∀ q ∈ x.quantifiers, q.IsOrdered) →
    BoundsHold x.lengthBounds x.most
  | .term factors, hq => by
    rw [PathExpr.quantifiers] at hq
    rw [PathExpr.lengthBounds, PathExpr.most]
    exact (term_boundsHold factors hq).leastLower
  | .union terms, hq => by
    rw [PathExpr.quantifiers] at hq
    rw [PathExpr.lengthBounds, PathExpr.most]
    exact choice_boundsHold terms hq
  | .multiset terms, hq => by
    rw [PathExpr.quantifiers] at hq
    rw [PathExpr.lengthBounds, PathExpr.most]
    exact choice_boundsHold terms hq

theorem choice_boundsHold : ∀ (terms : List (List Factor)),
    (∀ q ∈ termsQuantifiers terms, q.IsOrdered) →
    BoundsHold (leastLower (choiceLengthBounds terms)) (choiceMost terms)
  | [], _ => by
    rw [choiceLengthBounds, choiceMost]
    exact ⟨fun m _ => Nat.zero_le m, fun m _ _ => zero_le⟩
  | t :: rest, hq => by
    rw [termsQuantifiers] at hq
    rw [choiceLengthBounds, choiceMost]
    have hfirst := term_boundsHold t fun q hq' => hq q (List.mem_append_left _ hq')
    have hothers := choice_boundsHold rest fun q hq' => hq q (List.mem_append_right _ hq')
    exact (hfirst.alternation (b := choiceLengthBounds rest) hothers.most).leastLower

theorem term_boundsHold : ∀ (factors : List Factor), (∀ q ∈ termQuantifiers factors, q.IsOrdered) →
    BoundsHold (termLengthBounds factors) (termMost factors)
  | [], _ => by
    rw [termLengthBounds, termMost]
    exact ⟨fun m _ => Nat.zero_le m, fun m _ _ => zero_le⟩
  | f :: rest, hq => by
    rw [termQuantifiers] at hq
    rw [termLengthBounds, termMost]
    exact (f.boundsHold fun q hq' => hq q (List.mem_append_left _ hq')).seq
      (term_boundsHold rest fun q hq' => hq q (List.mem_append_right _ hq'))

theorem Factor.boundsHold : ∀ (f : Factor), (∀ q ∈ f.quantifiers, q.IsOrdered) →
    BoundsHold f.lengthBounds f.most
  | .mk e none, hq => by
    rw [Factor.quantifiers] at hq
    rw [Factor.lengthBounds, Factor.most]
    exact e.boundsHold hq
  | .mk e (some q), hq => by
    rw [Factor.quantifiers, Option.toList_some, List.singleton_append, List.forall_mem_cons] at hq
    rw [Factor.lengthBounds, Factor.most]
    exact (e.boundsHold hq.2).repeated hq.1

theorem Element.boundsHold : ∀ (e : Element), (∀ q ∈ e.quantifiers, q.IsOrdered) →
    BoundsHold e.lengthBounds e.most
  | .node f, _ => by
    rw [Element.lengthBounds, Element.most]
    exact ⟨fun m _ => Nat.zero_le m, fun m _ _ => zero_le⟩
  | .edge pattern, _ => by
    rw [Element.lengthBounds, Element.most]
    refine ⟨fun m hm => ?_, fun m hm _ => ?_⟩
    · exact (Option.some.inj hm).le
    · obtain rfl := Option.some.inj hm
      exact Nat.cast_one.ge
  | .group name mode body condition, hq => by
    rw [Element.quantifiers] at hq
    rw [Element.lengthBounds, Element.most]
    exact body.boundsHold hq

end

/-! ## The threads of a search -/

/-- The vertices of a walk can be counted in a word, as they are where the walk has to be held in
memory. -/
def Walk.Fits (w : Walk) : Prop := w.vertices.length ≤ Number.maxWord

namespace PathPattern

/-- Every walk of a search fits. -/
def WalksFit (p : PathPattern) (env : Env) : Prop :=
  ∀ (base : Bindings) (s : Search), Search.Reached env (.compile p) base s →
    ∀ c ∈ s.agenda, c.thread.walk.Fits

variable {p : PathPattern} {env : Env} {base : Bindings} {s : Search} {c : Choice}

/-- With a limit on the length that leaves room for one vertex more, all walks fit. -/
theorem walksFit_of_lt (p : PathPattern) (h : env.config.maxPathLength < Number.maxWord) :
    p.WalksFit env := by
  intro base s hs c hc
  have hlimit := hs.limit_add_deeper
  have hlength : c.thread.walk.length ≤ s.limit := by
    have hroom := hs.length_add_room c hc
    cases c with
    | resume t => exact (Nat.le_add_right _ _).trans_eq hroom
    | extend t pattern grouped room candidates => exact (Nat.le_add_right _ _).trans_eq hroom.1
  rw [Walk.Fits, Walk.length_vertices, Walk.edges, List.length_map]
  exact Nat.succ_le_of_lt ((hlength.trans (by omega)).trans_lt h)

/-- A number of edges that a match may have, and that fits in a word, is no more than the greatest length;
one that is cut off is the greatest number of a word. -/
theorem le_maxLength (hq : ∀ q ∈ p.expr.quantifiers, q.IsOrdered) {m n : Nat}
    (hm : (Program.compile p).maxLength = some m) (hmost : (n : ℕ∞) ≤ p.expr.most)
    (hword : n ≤ Number.maxWord) : n ≤ m := by
  rcases Nat.lt_or_ge m Number.maxWord with hlt | hge
  · exact Nat.cast_le.mp (hmost.trans ((p.expr.boundsHold hq).most m hm hlt))
  · exact hword.trans hge

section Reached

variable (h : Search.Reached env (.compile p) base s) (hc : c ∈ s.agenda)

include h hc

theorem length_le_maxLength (hq : ∀ q ∈ p.expr.quantifiers, q.IsOrdered) (hfit : c.thread.walk.Fits)
    {m : Nat} (hm : (Program.compile p).maxLength = some m) : c.thread.walk.length ≤ m := by
  obtain ⟨spot, -, hsits⟩ := p.isPlaced_of_reached h hc
  refine le_maxLength hq hm (le_self_add.trans hsits.most) ?_
  simp only [Walk.Fits, Walk.length_vertices, Walk.edges, List.length_map] at hfit
  exact (Nat.le_succ _).trans hfit

theorem length_lt_maxLength (hq : ∀ q ∈ p.expr.quantifiers, q.IsOrdered) (hfit : c.thread.walk.Fits)
    {pattern : EdgePattern} {grouped : Bool}
    (hi : (Program.compile p).code[c.thread.pc]? = some (.edge pattern grouped)) {m : Nat}
    (hm : (Program.compile p).maxLength = some m) : c.thread.walk.length < m := by
  obtain ⟨spot, -, hsits, -, next, -, hnext⟩ := (p.isPlaced_of_reached h hc).exists_sound hi
  refine le_maxLength hq hm ?_ (by simpa [Walk.Fits, Walk.edges, Walk.length] using hfit)
  rw [Nat.succ_eq_add_one, Nat.cast_add, Nat.cast_one]
  exact (add_le_add_right (le_self_add.trans (hnext _)) _).trans hsits.most

/-- A thread at the end of the program has matched one of the ways of the pattern. -/
theorem minLength_le_length (hi : (Program.compile p).code[c.thread.pc]? = some .accept) :
    (Program.compile p).minLength ≤ c.thread.walk.length := by
  have hcarries := p.carries_isPlaced h c hc
  have hslack := (p.exists_instruction h hc).2
  obtain ⟨v, limit, hsubset⟩ := h.agenda (P := fun c => ∃ v limit, c.outcomes env (.compile p) ⊆
      (Choice.resume (.start v base limit (Program.compile p).idle)).outcomes env (.compile p))
    (fun v limit _ => ⟨v, limit, List.Subset.refl _⟩)
    (fun c d hcd ⟨v, limit, hc⟩ => ⟨v, limit, List.Subset.trans hcd.outcomes_subset hc⟩) c hc
  cases c with
  | extend t pattern grouped room candidates =>
    cases hcarries.2.1.symm.trans hi
  | resume t =>
    obtain ⟨slack, hslack⟩ : ∃ slack, t.slack = slack + 1 := ⟨t.slack - 1, by have := hslack t rfl; omega⟩
    have harrives : Outcome.arrives { t with slack := slack } ∈
        (Choice.resume t).outcomes env (.compile p) := by
      rw [Choice.outcomes_resume hslack hi]
      exact List.mem_singleton_self _
    have hway : Thread.stage { t with slack := slack } ∈
        p.expr.ways ⟨env, p.modeInForce, [], false⟩ (.start v base limit) := by
      rw [← p.stages_start env base limit v]
      exact List.mem_map_of_mem (Outcome.mem_arrivals.mpr (hsubset harrives))
    exact (Nat.le_add_left _ _).trans (p.expr.length_ways _ _ _ hway)

end Reached

end PathPattern

end GraphPatterns
