/-
The least length of a match. No way of a pattern is shorter than the lower bound that is computed from
the pattern (`PathExpr.length_ways`), so a search that starts at this bound misses no shorter path.
-/
import GraphPatterns.Proofs.Ways

namespace GraphPatterns

theorem saturate_le (n : Nat) : saturate n ≤ n := Nat.min_le_right _ _

theorem leastLower_le (bounds : Nat × Option Nat) : (leastLower bounds).1 ≤ bounds.1 := by
  unfold leastLower
  dsimp only
  split
  · exact Nat.zero_le _
  · exact Nat.le_refl _

/-- Every repetition that is owed makes the walk longer by what the body takes at least. -/
theorem length_repetitions {body : Stage → List Stage} {least : Nat}
    (hbody : ∀ s, ∀ u ∈ body s, s.walk.length + least ≤ u.walk.length) (lower : Nat)
    (upper : Option Nat) (n : Nat) (s : Stage) :
    ∀ u ∈ repetitions body lower upper n s, s.walk.length + least * (lower - n) ≤ u.walk.length := by
  induction n, s using repetitions.induct lower upper with
  | case1 n s hn ih =>
    intro u hu
    rw [repetitions, dif_pos hn] at hu
    obtain ⟨v, hv, hu⟩ := List.mem_flatMap.mp hu
    have hfirst := hbody s v hv
    have hrest := ih v u hu
    have howed : least * (lower - n) = least * (lower - (n + 1)) + least := by
      rw [← Nat.mul_succ]
      congr 1
      omega
    simp only at hrest
    omega
  | case2 n s hn hupper =>
    intro u hu
    rw [repetitions, dif_neg hn, if_pos hupper] at hu
    obtain rfl := List.mem_singleton.mp hu
    rw [Nat.sub_eq_zero_of_le (Nat.le_of_not_lt hn), Nat.mul_zero]
    exact Nat.le_refl _
  | case3 n s hn hupper ih =>
    intro u hu
    rw [Nat.sub_eq_zero_of_le (Nat.le_of_not_lt hn), Nat.mul_zero, Nat.add_zero]
    rw [repetitions, dif_neg hn, if_neg hupper] at hu
    rcases List.mem_cons.mp hu with rfl | hu
    · exact Nat.le_refl _
    · obtain ⟨v, hv, hu⟩ := List.mem_flatMap.mp hu
      split at hu
      · next hroom =>
        have hfirst := hbody s v hv
        have hrest := ih v hroom u hu
        simp only at hrest
        omega
      · cases hu

@[simp] theorem Stage.walk_bind (s : Stage) (name : Option String) (repeated : Bool)
    (x : ElementId) : (s.bind name repeated x).walk = s.walk := by
  unfold bind
  split
  · rfl
  · split
    · rfl
    · split <;> rfl

theorem length_choice {terms : List (List Factor)} {c : Surroundings} {s u : Stage}
    (hterms : u ∈ choiceWays terms c s →
      s.walk.length + (choiceLengthBounds terms).1 ≤ u.walk.length)
    (hu : u ∈ if terms.isEmpty then [s] else choiceWays terms c s) :
    s.walk.length + (leastLower (choiceLengthBounds terms)).1 ≤ u.walk.length := by
  cases terms with
  | nil =>
    obtain rfl := List.mem_singleton.mp hu
    exact Nat.le_refl _
  | cons t rest =>
    have hlen := hterms hu
    have hle := leastLower_le (choiceLengthBounds (t :: rest))
    omega

mutual

theorem PathExpr.length_ways : ∀ (x : PathExpr) (c : Surroundings) (s : Stage), ∀ u ∈ x.ways c s,
    s.walk.length + x.lengthBounds.1 ≤ u.walk.length
  | .term factors, c, s, u, hu => by
    rw [PathExpr.ways] at hu
    have hlen := term_length_ways factors c s u hu
    have hle := leastLower_le (termLengthBounds factors)
    rw [PathExpr.lengthBounds]
    omega
  | .union terms, c, s, u, hu => by
    rw [PathExpr.ways] at hu
    rw [PathExpr.lengthBounds]
    exact length_choice (choice_length_ways terms c s u) hu
  | .multiset terms, c, s, u, hu => by
    rw [PathExpr.ways] at hu
    rw [PathExpr.lengthBounds]
    exact length_choice (choice_length_ways terms c s u) hu

theorem choice_length_ways : ∀ (terms : List (List Factor)) (c : Surroundings) (s : Stage),
    ∀ u ∈ choiceWays terms c s, s.walk.length + (choiceLengthBounds terms).1 ≤ u.walk.length
  | [], c, s, u, hu => by
    rw [choiceWays] at hu
    cases hu
  | t :: rest, c, s, u, hu => by
    rw [choiceWays] at hu
    rw [choiceLengthBounds]
    dsimp only
    rcases List.mem_append.mp hu with hu | hu
    · have hlen := term_length_ways t c s u hu
      omega
    · have hlen := choice_length_ways rest c s u hu
      omega

theorem term_length_ways : ∀ (factors : List Factor) (c : Surroundings) (s : Stage),
    ∀ u ∈ termWays factors c s, s.walk.length + (termLengthBounds factors).1 ≤ u.walk.length
  | [], c, s, u, hu => by
    rw [termWays] at hu
    obtain rfl := List.mem_singleton.mp hu
    exact Nat.le_refl _
  | f :: rest, c, s, u, hu => by
    rw [termWays] at hu
    rw [termLengthBounds]
    dsimp only
    obtain ⟨v, hv, hu⟩ := List.mem_flatMap.mp hu
    have hfirst := f.length_ways c s v hv
    have hrest := term_length_ways rest c v u hu
    have hle := saturate_le (f.lengthBounds.1 + (termLengthBounds rest).1)
    omega

theorem Factor.length_ways : ∀ (f : Factor) (c : Surroundings) (s : Stage), ∀ u ∈ f.ways c s,
    s.walk.length + f.lengthBounds.1 ≤ u.walk.length
  | .mk e none, c, s, u, hu => by
    rw [Factor.ways] at hu
    rw [Factor.lengthBounds]
    exact e.length_ways c s u hu
  | .mk e (some q), c, s, u, hu => by
    rw [Factor.ways] at hu
    rw [Factor.lengthBounds, Quantifier.lengthBounds]
    have hlen := length_repetitions (e.length_ways { c with repeated := true }) q.lower q.upper 0 s u hu
    have hle := saturate_le (e.lengthBounds.1 * q.lower)
    rw [Nat.sub_zero] at hlen
    dsimp only
    omega

theorem Element.length_ways : ∀ (e : Element) (c : Surroundings) (s : Stage), ∀ u ∈ e.ways c s,
    s.walk.length + e.lengthBounds.1 ≤ u.walk.length
  | .node f, c, s, u, hu => by
    rw [Element.ways] at hu
    rw [Element.lengthBounds]
    split at hu
    · obtain rfl := List.mem_singleton.mp hu
      simp
    · cases hu
  | .edge pattern, c, s, u, hu => by
    rw [Element.ways] at hu
    rw [Element.lengthBounds]
    split at hu
    · cases hu
    · obtain ⟨edge, -, hu⟩ := List.mem_flatMap.mp hu
      split at hu
      · obtain rfl := List.mem_singleton.mp hu
        simp [Stage.cross]
      · cases hu
  | .group name mode body condition, c, s, u, hu => by
    rw [Element.ways] at hu
    obtain ⟨v, hv, hu⟩ := List.mem_flatMap.mp hu
    have hlen := body.length_ways _ s v hv
    rw [Element.lengthBounds]
    split at hu
    · obtain rfl := List.mem_singleton.mp hu
      exact hlen
    · cases hu

end

/-- No way of a path pattern is shorter than the least length of its program. -/
theorem PathPattern.length_ways {p : PathPattern} {env : Env} {base : Bindings} {limit : Nat}
    {u : Stage} (hu : u ∈ p.ways env base limit) :
    (Program.compile p).minLength ≤ u.walk.length := by
  obtain ⟨v, -, hu⟩ := List.mem_flatMap.mp hu
  have hlen := p.expr.length_ways _ _ u hu
  exact Nat.le_trans (Nat.le_add_left _ _) hlen

end GraphPatterns
