/-
The shortest digits of a double stand for a number in its rounding interval (`shortest_mem`): a grid of
seventeen digits is finer than the interval is wide, so one of its points is found. They end before the
point exactly where the double is a whole number (`shortest_isWhole_iff`).
-/
import GraphPatterns.Proofs.Rounding
import GraphPatterns.Proofs.Tokens

namespace GraphPatterns.Number

variable {m : Nat} {e : Int} {i : Interval} {place : Int} {r : ℚ}

/-! ## The decimal order -/

/-- The order is not too high: the number is not below the power of ten under its first digit. -/
theorem zpow_decimalOrder_le (hm : 0 < m) (e : Int) : (10 : ℚ) ^ (decimalOrder m e - 1) ≤ m * 2 ^ e := by
  have hvalue : ratio (scaled m 1 e) = m * 2 ^ e := by rw [ratio_scaled, Nat.cast_one, div_one]
  have hden : 0 < (scaled m 1 e).2 := scaled_pos m Nat.zero_lt_one e
  have hpos : (0 : ℚ) < m * 2 ^ e := mul_pos (Nat.cast_pos.mpr hm) (two_zpow_pos e)
  have hpower (k : Int) : ratioLt (scaled m 1 e) (decimalRatio 1 k 0) = true ↔ (m * 2 ^ e : ℚ) < 10 ^ k := by
    rw [ratioLt_iff hden (decimalRatio_pos 1 k 0), hvalue, ratio_decimalRatio]
    simp
  unfold decimalOrder
  dsimp only
  rw [← hvalue]
  rw [← hvalue] at hpos hpower
  generalize scaled m 1 e = v at *
  have hden' : (0 : ℚ) < v.2 := Nat.cast_pos.mpr hden
  have hnum : 0 < v.1 := by
    have := (div_pos_iff_of_pos_right hden').mp hpos
    exact_mod_cast this
  split
  · next hle =>
    obtain ⟨hdigits, -⟩ := toDigits_bounds (Nat.div_pos hle hden)
    have hlength := Nat.length_toDigits_pos (b := 10) (n := v.1 / v.2)
    calc (10 : ℚ) ^ (((Nat.toDigits 10 (v.1 / v.2)).length : Int) - 1)
        = (10 ^ ((Nat.toDigits 10 (v.1 / v.2)).length - 1) : Nat) := by
          rw [← Nat.cast_pred hlength, zpow_natCast]
          push_cast
          rfl
      _ ≤ (v.1 / v.2 : Nat) := Nat.cast_le.mpr hdigits
      _ ≤ ratio v := Nat.cast_div_le
  · next hlt =>
    -- The reciprocal is below the power of ten that has as many zeros as its whole part has digits.
    have hzeros : (10 : ℚ) ^ (-((Nat.toDigits 10 (v.2 / v.1)).length : Int)) < ratio v := by
      obtain ⟨-, hdigits⟩ := toDigits_bounds (Nat.div_pos (Nat.le_of_not_le hlt) hnum)
      have hnum' : (0 : ℚ) < v.1 := Nat.cast_pos.mpr hnum
      have hreciprocal : v.2 < 10 ^ (Nat.toDigits 10 (v.2 / v.1)).length * v.1 :=
        (Nat.div_lt_iff_lt_mul hnum).mp hdigits
      have : (v.2 : ℚ) < 10 ^ (Nat.toDigits 10 (v.2 / v.1)).length * v.1 := by exact_mod_cast hreciprocal
      rw [zpow_neg, zpow_natCast, ratio, inv_eq_one_div, div_lt_div_iff₀ (by positivity) hden', one_mul,
        mul_comm]
      exact this
    generalize ((Nat.toDigits 10 (v.2 / v.1)).length : Int) = zeros at *
    split
    · exact (zpow_le_zpow_right₀ (by norm_num) (by omega)).trans hzeros.le
    · split
      · rw [show 1 - zeros - 1 = -zeros by ring]
        exact hzeros.le
      · next hnot =>
        rw [show 2 - zeros - 1 = 1 - zeros by ring]
        exact not_lt.mp fun hlt => hnot ((hpower _).mpr hlt)

/-! ## Grids -/

theorem gridPoint?_contains {n : Nat} (h : gridPoint? m e place i = some n) :
    i.contains n place = true := by
  unfold gridPoint? at h
  dsimp only at h
  split at h
  · next hboth =>
    rw [Bool.and_eq_true] at hboth
    split at h
    · obtain rfl := Option.some.inj h
      exact hboth.2
    · obtain rfl := Option.some.inj h
      exact hboth.1
  · split at h
    · next hbelow =>
      obtain rfl := Option.some.inj h
      exact hbelow
    · split at h
      · next habove =>
        obtain rfl := Option.some.inj h
        exact habove
      · cases h

/-- Where no point of a grid is found, neither of the two next to the number is in the interval. -/
theorem of_gridPoint?_eq_none (h : gridPoint? m e place i = none) : ∃ below : Nat,
    (below * 10 ^ place : ℚ) ≤ m * 2 ^ e ∧ (m * 2 ^ e : ℚ) < (below + 1 : Nat) * 10 ^ place ∧
      ¬ i.Mem (below * 10 ^ place) ∧ ¬ i.Mem ((below + 1 : Nat) * 10 ^ place) := by
  have hden := decimalRatio_pos m (-place) e
  have hden' : (0 : ℚ) < (decimalRatio m (-place) e).2 := Nat.cast_pos.mpr hden
  have hten := ten_zpow_pos place
  have hvalue : ratio (decimalRatio m (-place) e) * 10 ^ place = m * 2 ^ e := by
    rw [ratio_decimalRatio, mul_right_comm, mul_assoc (m : ℚ), ← zpow_add₀ (by norm_num), neg_add_cancel,
      zpow_zero, mul_one]
  refine ⟨(decimalRatio m (-place) e).1 / (decimalRatio m (-place) e).2, ?_, ?_, ?_⟩
  · rw [← hvalue]
    exact mul_le_mul_of_nonneg_right Nat.cast_div_le hten.le
  · rw [← hvalue]
    refine mul_lt_mul_of_pos_right ?_ hten
    rw [ratio, div_lt_iff₀ hden']
    rw [mul_comm]
    exact_mod_cast Nat.lt_mul_div_succ _ hden
  · rw [← Interval.contains_iff, ← Interval.contains_iff]
    unfold gridPoint? at h
    dsimp only at h
    generalize i.contains _ place = inBelow at h ⊢
    generalize i.contains _ place = inAbove at h ⊢
    cases inBelow <;> cases inAbove <;> simp at h ⊢

theorem Interval.mem_of_lt (hlow : ((Interval.around m e).low : ℚ) / 4 < r * 2 ^ (-e))
    (hhigh : r * 2 ^ (-e) < m + 1 / 2) : (Interval.around m e).Mem r := by
  rw [mem_around_iff]
  split
  · exact ⟨hlow.le, hhigh.le⟩
  · exact ⟨hlow, hhigh⟩

/-- A grid that is finer than the interval is wide has a point in it. -/
theorem gridPoint?_ne_none (hm : 0 < m)
    (hfine : (10 : ℚ) ^ place * 2 ^ (-e) < m + 1 / 2 - (Interval.around m e).low / 4) :
    gridPoint? m e place (.around m e) ≠ none := by
  intro hnone
  obtain ⟨below, hbelow, habove, hnot, hnot'⟩ := of_gridPoint?_eq_none hnone
  have hpos := two_zpow_pos (-e)
  have hunit : (m * 2 ^ e : ℚ) * 2 ^ (-e) = m := by
    rw [mul_assoc, ← zpow_add₀ two_ne_zero, add_neg_cancel, zpow_zero, mul_one]
  have hlow : ((Interval.around m e).low : ℚ) / 4 < m := by
    rw [Interval.low_around hm]
    split <;> linarith
  have hbelow' := mul_le_mul_of_nonneg_right hbelow hpos.le
  have habove' := mul_lt_mul_of_pos_right habove hpos
  rw [hunit] at hbelow' habove'
  have hleft : (below * 10 ^ place : ℚ) * 2 ^ (-e) ≤ (Interval.around m e).low / 4 :=
    not_lt.mp fun hlt => hnot (Interval.mem_of_lt hlt (by linarith))
  have hright : (m + 1 / 2 : ℚ) ≤ (below + 1 : Nat) * 10 ^ place * 2 ^ (-e) :=
    not_lt.mp fun hlt => hnot' (Interval.mem_of_lt (hlow.trans habove') hlt)
  push_cast at hright
  linarith

/-- Seventeen digits are enough. -/
theorem gridPoint?_seventeen (hfinite : IsFinite m e) (hm : 0 < m) :
    gridPoint? m e (decimalOrder m e - 17) (.around m e) ≠ none := by
  have hpos := two_zpow_pos (-e)
  have hspacing : (10 : ℚ) ^ (decimalOrder m e - 17) * 2 ^ (-e) * 10 ^ 16 ≤ m := by
    have horder := mul_le_mul_of_nonneg_right (zpow_decimalOrder_le hm e) hpos.le
    rw [mul_assoc, ← zpow_add₀ two_ne_zero, add_neg_cancel, zpow_zero, mul_one] at horder
    calc (10 : ℚ) ^ (decimalOrder m e - 17) * 2 ^ (-e) * 10 ^ 16
        = 10 ^ (decimalOrder m e - 17 + 16) * 2 ^ (-e) := by
          rw [zpow_add₀ (by norm_num)]
          norm_num
          ring
      _ = 10 ^ (decimalOrder m e - 1) * 2 ^ (-e) := by
          rw [show decimalOrder m e - 17 + 16 = decimalOrder m e - 1 by ring]
      _ ≤ m := horder
  have hlt : (m : ℚ) < 2 * fractionCount := by exact_mod_cast hfinite.lt
  have hcount : (fractionCount : ℚ) = 4503599627370496 := by norm_num [fractionCount]
  refine gridPoint?_ne_none hm ?_
  rw [Interval.low_around hm]
  split
  · next hpower =>
    have : (m : ℚ) = fractionCount := congrArg Nat.cast hpower
    linarith
  · linarith

theorem firstGrid_spec {order : Int} (fuel : Nat) {count k : Nat} (hk : count ≤ k)
    (hk' : k < count + fuel) (h : gridPoint? m e (order - k) i ≠ none) : ∃ n, ∃ c ≤ k,
      firstGrid m e order i fuel count = (n, order - c) ∧ i.contains n (order - c) = true := by
  induction fuel generalizing count with
  | zero => omega
  | succ fuel ih =>
    unfold firstGrid
    dsimp only
    split
    · next n hn => exact ⟨n, count, hk, rfl, gridPoint?_contains hn⟩
    · next hnone =>
      have hne : count ≠ k := by
        rintro rfl
        exact h hnone
      exact ih (by omega) (by omega)

/-! ## Digits -/

theorem digitsValue_zeros (s : List Char) (zeros : Nat) :
    digitsValue (s ++ List.replicate zeros '0') = digitsValue s * 10 ^ zeros := by
  induction zeros with
  | zero => rw [List.replicate_zero, List.append_nil, pow_zero, Nat.mul_one]
  | succ zeros ih =>
    unfold digitsValue at *
    rw [List.replicate_succ', ← List.append_assoc, List.foldl_append, ih, pow_succ, ← Nat.mul_assoc,
      Nat.mul_comm _ 10]
    rfl

theorem exists_trimmed (s : List Char) :
    ∃ zeros, s = (s.reverse.dropWhile (· == '0')).reverse ++ List.replicate zeros '0' := by
  have hzeros : (s.reverse.takeWhile (· == '0')).reverse =
      List.replicate (s.reverse.takeWhile (· == '0')).length '0' := by
    rw [List.reverse_eq_iff, List.reverse_replicate]
    exact List.eq_replicate_of_mem fun c hc => beq_iff_eq.mp (List.mem_takeWhile_imp (p := (· == '0')) hc)
  refine ⟨(s.reverse.takeWhile (· == '0')).length, ?_⟩
  rw [← hzeros, ← List.reverse_append, List.takeWhile_append_dropWhile, List.reverse_reverse]

/-- The digits are those of a point of the interval, without the zeros at its end, on a grid that is not
finer than one that has such a point. -/
theorem shortest_spec {k : Nat} (hk : 1 ≤ k) (hk' : k < 19)
    (h : gridPoint? m e (decimalOrder m e - k) (.around m e) ≠ none) :
    ∃ n : Nat, ∃ place ≥ decimalOrder m e - k, (Interval.around m e).Mem (n * 10 ^ place) ∧
      (shortest m e).order = place + (Nat.toDigits 10 n).length ∧
        ∃ zeros, Nat.toDigits 10 n = (shortest m e).digits ++ List.replicate zeros '0' := by
  obtain ⟨n, c, hc, hgrid, hcontains⟩ := firstGrid_spec 18 hk hk' h
  rw [Interval.contains_iff] at hcontains
  refine ⟨n, decimalOrder m e - c, by omega, hcontains, ?_, ?_⟩
  · rw [shortest, hgrid]
  · rw [shortest, hgrid]
    exact exists_trimmed _

section

variable (hfinite : IsFinite m e) (hm : 0 < m)
include hfinite hm

/-- **The shortest digits stand for a number in the rounding interval.** -/
theorem shortest_mem : (Interval.around m e).Mem
    (digitsValue (shortest m e).digits * 10 ^ ((shortest m e).order - (shortest m e).digits.length)) := by
  obtain ⟨n, place, -, hmem, horder, zeros, hdigits⟩ :=
    shortest_spec (by decide) (by decide) (gridPoint?_seventeen hfinite hm)
  have hvalue : n = digitsValue (shortest m e).digits * 10 ^ zeros := by
    rw [← digitsValue_zeros, ← hdigits, Parser.digitsValue_toDigits]
  have hlength := congrArg List.length hdigits
  rw [List.length_append, List.length_replicate] at hlength
  rw [horder, hlength]
  convert hmem using 1
  rw [hvalue]
  push_cast
  rw [mul_assoc, ← zpow_natCast, ← zpow_add₀ (by norm_num)]
  congr 2
  omega

theorem shortest_digits : (shortest m e).digits ≠ [] ∧ ∀ c ∈ (shortest m e).digits, c.isDigit = true := by
  obtain ⟨n, place, -, hmem, horder, zeros, hdigits⟩ :=
    shortest_spec (by decide) (by decide) (gridPoint?_seventeen hfinite hm)
  constructor
  · intro hnil
    have hpos := (shortest_mem hfinite hm).pos hm
    rw [hnil] at hpos
    simp [digitsValue] at hpos
  · intro c hc
    refine Parser.isDigit_of_mem_toDigits c (n := n) ?_
    rw [hdigits]
    exact List.mem_append_left _ hc

end

/-! ## Whole numbers -/

/-- The double has no fraction. -/
def IsWhole (m : Nat) (e : Int) : Prop := 0 ≤ e ∨ 2 ^ (-e).toNat ∣ m

instance (m : Nat) (e : Int) : Decidable (IsWhole m e) := inferInstanceAs (Decidable (_ ∨ _))

theorem isWhole_iff : IsWhole m e ↔ ∃ k : Nat, (m * 2 ^ e : ℚ) = k := by
  unfold IsWhole
  rcases zpow_cases 2 e with ⟨he, hpow⟩ | ⟨he, hpow⟩
  · rw [hpow]
    exact iff_of_true (.inl he) ⟨m * 2 ^ e.toNat, by push_cast; rfl⟩
  · have hpos : (2 : ℚ) ^ (-e).toNat ≠ 0 := by positivity
    rw [hpow, or_iff_right he]
    constructor
    · rintro ⟨k, rfl⟩
      refine ⟨k, ?_⟩
      push_cast
      rw [mul_right_comm, mul_inv_cancel₀ hpos, one_mul]
    · rintro ⟨k, hk⟩
      refine ⟨k, ?_⟩
      rw [mul_inv_eq_iff_eq_mul₀ hpos] at hk
      rw [Nat.mul_comm]
      exact_mod_cast hk

theorem Interval.mem_self (hm : 0 < m) : (Interval.around m e).Mem (m * 2 ^ e) := by
  have hunit : (m * 2 ^ e : ℚ) * 2 ^ (-e) = m := by
    rw [mul_assoc, ← zpow_add₀ two_ne_zero, add_neg_cancel, zpow_zero, mul_one]
  refine mem_of_lt ?_ ?_
  · rw [hunit, low_around hm]
    split <;> linarith
  · rw [hunit]
    linarith

/-- The grid of whole numbers has a point in the interval of a whole number. -/
theorem gridPoint?_of_isWhole (hm : 0 < m) (h : IsWhole m e) : gridPoint? m e 0 (.around m e) ≠ none := by
  intro hnone
  obtain ⟨below, hbelow, habove, hnot, -⟩ := of_gridPoint?_eq_none hnone
  obtain ⟨k, hk⟩ := isWhole_iff.mp h
  rw [hk, zpow_zero, mul_one] at hbelow habove
  have hle : below ≤ k := by exact_mod_cast hbelow
  have hlt : k < below + 1 := by exact_mod_cast habove
  obtain rfl : below = k := by omega
  rw [zpow_zero, mul_one, ← hk] at hnot
  exact hnot (Interval.mem_self hm)

theorem decimalOrder_pos (h : (1 : ℚ) ≤ m * 2 ^ e) : 0 < decimalOrder m e := by
  have hvalue : ratio (scaled m 1 e) = m * 2 ^ e := by rw [ratio_scaled, Nat.cast_one, div_one]
  rw [← hvalue, one_le_ratio_iff (scaled_pos m Nat.zero_lt_one e)] at h
  rw [decimalOrder, if_pos h]
  exact_mod_cast Nat.length_toDigits_pos

/-- A whole number that is half a unit away from a double, at most, is the double itself. -/
theorem isWhole_of_mem (hm : 0 < m) {k : Nat} (h : (Interval.around m e).Mem k) : IsWhole m e := by
  obtain ⟨hlow, hhigh⟩ := h.half_le hm
  rcases zpow_cases 2 (-e) with ⟨he, hpow⟩ | ⟨he, -⟩
  · rw [hpow] at hlow hhigh
    have hlt : (m : ℚ) < k * 2 ^ (-e).toNat + 1 := by linarith
    have hlt' : (k * 2 ^ (-e).toNat : ℚ) < m + 1 := by linarith
    have hlt : m < k * 2 ^ (-e).toNat + 1 := by exact_mod_cast hlt
    have hlt' : k * 2 ^ (-e).toNat < m + 1 := by exact_mod_cast hlt'
    exact .inr ⟨k, by rw [Nat.mul_comm]; omega⟩
  · exact .inl (by omega)

/-- The digits of a whole number are those of a whole number. -/
theorem shortest_spec_of_isWhole (hfinite : IsFinite m e) (hm : 0 < m) (hwhole : IsWhole m e) :
    ∃ n : Nat, ∃ place ≥ 0, (shortest m e).order = place + (Nat.toDigits 10 n).length ∧
      ∃ zeros, Nat.toDigits 10 n = (shortest m e).digits ++ List.replicate zeros '0' := by
  obtain ⟨k, hk⟩ := isWhole_iff.mp hwhole
  have hpos : (0 : ℚ) < m * 2 ^ e := mul_pos (Nat.cast_pos.mpr hm) (two_zpow_pos e)
  have horder : 0 < decimalOrder m e := by
    rw [hk] at hpos
    have hk' : 0 < k := by exact_mod_cast hpos
    refine decimalOrder_pos ?_
    rw [hk]
    exact_mod_cast hk'
  -- The grid of whole numbers is among those that are tried, or all of them are coarser.
  by_cases hshort : decimalOrder m e ≤ 17
  · have hcount : decimalOrder m e - ((decimalOrder m e).toNat : Int) = 0 := by omega
    have hgrid := gridPoint?_of_isWhole hm hwhole
    rw [← hcount] at hgrid
    obtain ⟨n, place, hplace, -, hspec⟩ := shortest_spec (by omega) (by omega) hgrid
    exact ⟨n, place, by omega, hspec⟩
  · obtain ⟨n, place, hplace, -, hspec⟩ :=
      shortest_spec (by decide) (by decide) (gridPoint?_seventeen hfinite hm)
    have hfloor : decimalOrder m e - 17 ≤ place := hplace
    exact ⟨n, place, by omega, hspec⟩

/-- **The digits end before the point exactly where the double is a whole number.** -/
theorem shortest_isWhole_iff (hfinite : IsFinite m e) (hm : 0 < m) :
    (shortest m e).digits.length ≤ (shortest m e).order ↔ IsWhole m e := by
  constructor
  · intro hle
    have hmem := shortest_mem hfinite hm
    have hplace : ((shortest m e).order - (shortest m e).digits.length).toNat =
        (shortest m e).order - (shortest m e).digits.length := Int.toNat_of_nonneg (by omega)
    rw [← hplace, zpow_natCast] at hmem
    refine isWhole_of_mem hm (k := digitsValue (shortest m e).digits *
      10 ^ ((shortest m e).order - (shortest m e).digits.length).toNat) ?_
    push_cast
    exact hmem
  · intro hwhole
    obtain ⟨n, place, hplace, hlength, zeros, hdigits⟩ := shortest_spec_of_isWhole hfinite hm hwhole
    have hle := congrArg List.length hdigits
    rw [List.length_append] at hle
    omega

end GraphPatterns.Number
