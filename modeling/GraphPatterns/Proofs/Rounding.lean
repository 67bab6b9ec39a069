/-
Rounding to doubles. A finite double is its sign, its significand and its exponent (`of_magnitude`).
Ratios of natural numbers are read as rational numbers. The rounding interval of a finite double holds
numbers that the double is nearest to: every ratio in it is rounded to that double
(`nearestBits_of_mem`), and so is every decimal (`ofDecimal_of_mem`).
-/
import GraphPatterns.Number.Decimal
import GraphPatterns.Number.Shortest
import Mathlib

namespace GraphPatterns.Number

/-! ## Finite doubles -/

theorem ofBits_isNegative (x : Float) : ofBits (isNegative x) (x.toBits.toNat % signBit) = x := by
  have hbits : (if isNegative x = true then signBit + x.toBits.toNat % signBit
      else x.toBits.toNat % signBit) = x.toBits.toNat := by
    have hlt := x.toBits.toNat_lt
    unfold isNegative signBit
    split
    · next h =>
      have := beq_iff_eq.mp h
      omega
    · next h =>
      have : ¬ x.toBits.toNat / 9223372036854775808 = 1 := fun heq => h (beq_iff_eq.mpr heq)
      omega
  rw [ofBits, hbits, UInt64.ofNat_toNat, Float.ofBits_toBits]

/-- A significand and an exponent as finite doubles have them: where the exponent is not the least one,
the significand has all its bits. -/
structure IsFinite (m : Nat) (e : Int) : Prop where
  lt : m < 2 * fractionCount
  least : leastExponent ≤ e
  le : e ≤ 971
  normal : e = leastExponent ∨ fractionCount ≤ m

/-- The 63 bits of a finite double. -/
def finiteBits (m : Nat) (e : Int) : Nat := (e - leastExponent).toNat * fractionCount + m

/-- A finite double is made of its sign, its significand and its exponent. -/
theorem of_magnitude {x : Float} {m : Nat} {e : Int} (h : magnitude x = .finite m e) :
    IsFinite m e ∧ ofBits (isNegative x) (finiteBits m e) = x := by
  have hbits : IsFinite m e ∧ finiteBits m e = x.toBits.toNat % signBit := by
    have hlt : x.toBits.toNat % signBit < 2048 * fractionCount := Nat.mod_lt _ (by decide)
    unfold magnitude at h
    dsimp only at h
    generalize x.toBits.toNat % signBit = bits at h hlt
    unfold fractionCount at h hlt
    split at h
    · split at h <;> cases h
    · split at h
      · cases h
        refine ⟨⟨?_, ?_, ?_, .inl rfl⟩, ?_⟩ <;>
          simp only [finiteBits, leastExponent, fractionCount] <;> omega
      · cases h
        refine ⟨⟨?_, ?_, ?_, .inr ?_⟩, ?_⟩ <;>
          simp only [finiteBits, leastExponent, fractionCount] <;> omega
  exact ⟨hbits.1, hbits.2 ▸ ofBits_isNegative x⟩

/-! ## Ratios -/

/-- The rational number that a ratio of natural numbers denotes. -/
def ratio (p : Nat × Nat) : ℚ := p.1 / p.2

section

variable {num den : Nat} {a b : Nat × Nat}

theorem two_zpow_pos (e : Int) : (0 : ℚ) < 2 ^ e := zpow_pos (by norm_num) e

theorem ten_zpow_pos (e : Int) : (0 : ℚ) < 10 ^ e := zpow_pos (by norm_num) e

/-- Only powers with natural exponents are computed: the base goes above or below the line. -/
theorem zpow_cases (base : ℚ) (e : Int) :
    (0 ≤ e ∧ base ^ e = base ^ e.toNat) ∨ (¬ 0 ≤ e ∧ base ^ e = (base ^ (-e).toNat)⁻¹) := by
  by_cases he : 0 ≤ e
  · refine .inl ⟨he, ?_⟩
    rw [← zpow_natCast, Int.toNat_of_nonneg he]
  · refine .inr ⟨he, ?_⟩
    rw [← zpow_natCast, Int.toNat_of_nonneg (by omega), zpow_neg, inv_inv]

theorem scaled_pos (num : Nat) (hden : 0 < den) (power : Int) : 0 < (scaled num den power).2 := by
  unfold scaled
  split
  · exact hden
  · exact Nat.mul_pos hden (Nat.pow_pos Nat.zero_lt_two)

theorem ratio_scaled (num den : Nat) (power : Int) :
    ratio (scaled num den power) = num / den * 2 ^ power := by
  rcases zpow_cases 2 power with ⟨hp, hpow⟩ | ⟨hp, hpow⟩
  · rw [scaled, if_pos hp, hpow]
    simp only [ratio, Nat.pow_eq]
    push_cast
    ring
  · rw [scaled, if_neg hp, hpow]
    simp only [ratio, Nat.pow_eq]
    push_cast
    rw [div_mul_eq_div_div, div_eq_mul_inv _ ((2 : ℚ) ^ _)]

theorem decimalRatio_pos (n : Nat) (ten two : Int) : 0 < (decimalRatio n ten two).2 := by
  have hscaled := scaled_pos n Nat.zero_lt_one two
  unfold decimalRatio
  dsimp only
  split
  · exact hscaled
  · exact Nat.mul_pos hscaled (Nat.pow_pos (by decide))

theorem ratio_decimalRatio (n : Nat) (ten two : Int) :
    ratio (decimalRatio n ten two) = n * 10 ^ ten * 2 ^ two := by
  have hscaled : ratio (scaled n 1 two) = n * 2 ^ two := by
    rw [ratio_scaled, Nat.cast_one, div_one]
  rw [ratio] at hscaled
  rw [mul_right_comm, ← hscaled]
  rcases zpow_cases 10 ten with ⟨hp, hpow⟩ | ⟨hp, hpow⟩
  · simp only [decimalRatio, if_pos hp, hpow, ratio, Nat.pow_eq]
    push_cast
    ring
  · simp only [decimalRatio, if_neg hp, hpow, ratio, Nat.pow_eq]
    push_cast
    rw [div_mul_eq_div_div, div_eq_mul_inv _ ((10 : ℚ) ^ _)]

theorem ratioLt_iff (ha : 0 < a.2) (hb : 0 < b.2) : ratioLt a b = true ↔ ratio a < ratio b := by
  have ha' : (0 : ℚ) < a.2 := Nat.cast_pos.mpr ha
  have hb' : (0 : ℚ) < b.2 := Nat.cast_pos.mpr hb
  rw [ratioLt, decide_eq_true_iff, ratio, ratio, div_lt_div_iff₀ ha' hb']
  exact_mod_cast Iff.rfl

/-- A ratio is at least one if what is above the line is not less. -/
theorem one_le_ratio_iff (ha : 0 < a.2) : 1 ≤ ratio a ↔ a.2 ≤ a.1 := by
  have ha' : (0 : ℚ) < a.2 := Nat.cast_pos.mpr ha
  rw [ratio, one_le_div ha', Nat.cast_le]

/-! ## The order of magnitude -/

section

variable (hnum : 0 < num) (hden : 0 < den)
include hnum hden

theorem binaryOrder_bounds :
    (2 : ℚ) ^ binaryOrder num den ≤ num / den ∧ (num / den : ℚ) < 2 ^ (binaryOrder num den + 1) := by
  have hden' : (0 : ℚ) < den := Nat.cast_pos.mpr hden
  have hlow : (2 : ℚ) ^ num.log2 ≤ num := by exact_mod_cast Nat.log2_self_le hnum.ne'
  have hhigh : (num : ℚ) < 2 ^ (num.log2 + 1) := by exact_mod_cast (Nat.lt_log2_self (n := num))
  have hlow' : (2 : ℚ) ^ den.log2 ≤ den := by exact_mod_cast Nat.log2_self_le hden.ne'
  have hhigh' : (den : ℚ) < 2 ^ (den.log2 + 1) := by exact_mod_cast (Nat.lt_log2_self (n := den))
  have hguess (k : Int) : (2 : ℚ) ^ ((num.log2 : Int) - den.log2 + k) = 2 ^ num.log2 * 2 ^ k / 2 ^ den.log2 := by
    rw [zpow_add₀ two_ne_zero, zpow_sub₀ two_ne_zero, zpow_natCast, zpow_natCast]
    ring
  have hbelow : (num / den : ℚ) < 2 ^ ((num.log2 : Int) - den.log2 + 1) := by
    rw [hguess, zpow_one, div_lt_div_iff₀ hden' (by positivity), ← pow_succ]
    exact mul_lt_mul hhigh hlow' (by positivity) (by positivity)
  have habove : (2 : ℚ) ^ ((num.log2 : Int) - den.log2 - 1) ≤ num / den := by
    rw [sub_eq_add_neg _ (1 : Int), hguess, zpow_neg_one, div_le_div_iff₀ (by positivity) hden']
    rw [pow_succ] at hhigh'
    nlinarith [pow_pos (two_pos (α := ℚ)) den.log2, pow_pos (two_pos (α := ℚ)) num.log2]
  have hone : 1 ≤ ratio (scaled num den (-((num.log2 : Int) - den.log2))) ↔
      (2 : ℚ) ^ ((num.log2 : Int) - den.log2) ≤ num / den := by
    rw [ratio_scaled, zpow_neg, ← div_eq_mul_inv, one_le_div (two_zpow_pos _)]
  rw [one_le_ratio_iff (scaled_pos num hden _)] at hone
  unfold binaryOrder
  dsimp only
  split
  · next h => exact ⟨hone.mp h, hbelow⟩
  · next h =>
    rw [sub_add_cancel]
    exact ⟨habove, lt_of_not_ge fun hle => h (hone.mpr hle)⟩

end

theorem binaryOrder_eq (hnum : 0 < num) (hden : 0 < den) {k : Int} (hlow : (2 : ℚ) ^ k ≤ num / den)
    (hhigh : (num / den : ℚ) < 2 ^ (k + 1)) : binaryOrder num den = k := by
  obtain ⟨hlow', hhigh'⟩ := binaryOrder_bounds hnum hden
  have h₁ := (zpow_lt_zpow_iff_right₀ (one_lt_two (α := ℚ))).mp (hlow.trans_lt hhigh')
  have h₂ := (zpow_lt_zpow_iff_right₀ (one_lt_two (α := ℚ))).mp (hlow'.trans_lt hhigh)
  omega

end

/-! ## Rounding to a whole number -/

/-- The natural number is nearest to the rational one; it is even where another is as near. -/
def RoundsTo (q : ℚ) (k : Nat) : Prop := |q - k| < 1 / 2 ∨ |q - k| = 1 / 2 ∧ k % 2 = 0

theorem roundQuotient_of_roundsTo {num den k : Nat} (hden : 0 < den) (h : RoundsTo (num / den) k) :
    roundQuotient num den = k := by
  have hden' : (0 : ℚ) < den := Nat.cast_pos.mpr hden
  have hdist : |(num / den : ℚ) - k| * (2 * den) = ((2 * ((num : Int) - k * den)).natAbs : ℚ) := by
    rw [Nat.cast_natAbs, Int.cast_abs, ← abs_of_pos (a := (2 * den : ℚ)) (by positivity), ← abs_mul]
    congr 1
    push_cast
    field_simp
  have hnear : (2 * ((num : Int) - k * den)).natAbs ≤ den := by
    have : |(num / den : ℚ) - k| ≤ 1 / 2 := h.elim le_of_lt fun h => h.1.le
    have : |(num / den : ℚ) - k| * (2 * den) ≤ 1 / 2 * (2 * den) :=
      mul_le_mul_of_nonneg_right this (by positivity)
    rw [hdist] at this
    have : ((2 * ((num : Int) - k * den)).natAbs : ℚ) ≤ den := by linarith
    exact_mod_cast this
  have htie : (2 * ((num : Int) - k * den)).natAbs = den → k % 2 = 0 := by
    intro heq
    rcases h with h | h
    · have : |(num / den : ℚ) - k| * (2 * den) < 1 / 2 * (2 * den) :=
        mul_lt_mul_of_pos_right h (by positivity)
      rw [hdist, heq] at this
      linarith
    · exact h.2
  have hsplit : den * (num / den) + num % den = num := Nat.div_add_mod num den
  have hrest : num % den < den := Nat.mod_lt num hden
  have hcomm : (k : Int) * den = ((den * k : Nat) : Int) := by push_cast; ring
  rw [hcomm] at hnear htie
  unfold roundQuotient
  dsimp only
  -- The quotient is the number itself or the one below it.
  rcases Nat.lt_trichotomy (num / den) k with hlt | heq | hgt
  · obtain ⟨j, hj⟩ := Nat.exists_eq_add_of_lt hlt
    have hk : den * k = den * (num / den) + den * j + den := by rw [hj]; ring
    have hj0 : j = 0 := by
      rcases Nat.eq_zero_or_pos j with h0 | hpos
      · exact h0
      · have := Nat.le_mul_of_pos_right den hpos
        omega
    rw [hj0, Nat.mul_zero] at hk
    split
    · omega
    · split <;> omega
  · rw [← heq] at hnear htie
    split
    · exact heq
    · split <;> omega
  · obtain ⟨j, hj⟩ := Nat.exists_eq_add_of_lt hgt
    have hk : den * (num / den) = den * k + den * j + den := by rw [hj]; ring
    omega

/-! ## Rounding intervals -/

/-- The rational numbers in an interval: its ends are in it if it is closed. -/
def Interval.Mem (i : Interval) (r : ℚ) : Prop :=
  if i.closed then i.low * 2 ^ i.unit ≤ r ∧ r ≤ i.high * 2 ^ i.unit
  else i.low * 2 ^ i.unit < r ∧ r < i.high * 2 ^ i.unit

theorem Interval.contains_iff (i : Interval) (n : Nat) (place : Int) :
    i.contains n place = true ↔ i.Mem (n * 10 ^ place) := by
  have hx := ratio_decimalRatio n place 0
  have hx' := decimalRatio_pos n place 0
  have hend (k : Nat) : ratio (scaled k 1 i.unit) = k * 2 ^ i.unit := by
    rw [ratio_scaled, Nat.cast_one, div_one]
  have hend' (k : Nat) := scaled_pos k Nat.zero_lt_one i.unit
  rw [zpow_zero, mul_one] at hx
  unfold contains Mem
  dsimp only
  split
  · rw [Bool.and_eq_true, Bool.not_eq_true', Bool.not_eq_true', ← Bool.not_eq_true, ← Bool.not_eq_true,
      ratioLt_iff hx' (hend' _), ratioLt_iff (hend' _) hx', hend, hend, hx, not_lt, not_lt]
  · rw [Bool.and_eq_true, ratioLt_iff (hend' _) hx', ratioLt_iff hx' (hend' _), hend, hend, hx]

section

variable {m : Nat} {e : Int} {r : ℚ}

/-- The interval in units of the last place. -/
theorem Interval.mem_around_iff : (Interval.around m e).Mem r ↔
    if m % 2 = 0 then (Interval.around m e).low / 4 ≤ r * 2 ^ (-e) ∧ r * 2 ^ (-e) ≤ m + 1 / 2
    else (Interval.around m e).low / 4 < r * 2 ^ (-e) ∧ r * 2 ^ (-e) < m + 1 / 2 := by
  have hscale (k : Nat) : (k / 4 : ℚ) = k * 2 ^ (e - 2) * 2 ^ (-e) := by
    rw [mul_assoc, ← zpow_add₀ two_ne_zero, show e - 2 + -e = -2 by ring]
    norm_num
    ring
  have hhigh : (m + 1 / 2 : ℚ) = ((Interval.around m e).high : ℚ) / 4 := by
    simp only [around]
    push_cast
    ring
  have hpos := two_zpow_pos (-e)
  have hclosed : (Interval.around m e).closed = true ↔ m % 2 = 0 := beq_iff_eq
  rw [hhigh, hscale, hscale, mul_le_mul_iff_left₀ hpos, mul_le_mul_iff_left₀ hpos,
    mul_lt_mul_iff_left₀ hpos, mul_lt_mul_iff_left₀ hpos]
  simp only [Mem, hclosed]
  rfl

theorem Interval.low_around (hm : 0 < m) : ((Interval.around m e).low : ℚ) / 4 =
    if m = fractionCount then (m : ℚ) - 1 / 4 else (m : ℚ) - 1 / 2 := by
  simp only [around]
  split
  · rw [Nat.cast_sub (by omega)]
    push_cast
    ring
  · rw [Nat.cast_sub (by omega)]
    push_cast
    ring

variable (hm : 0 < m) (h : (Interval.around m e).Mem r)
include hm h

/-- In units of the last place the numbers of the interval are at most half a unit away. -/
theorem Interval.Mem.roundsTo : RoundsTo (r * 2 ^ (-e)) m := by
  have hlow : (m : ℚ) - 1 / 2 ≤ (Interval.around m e).low / 4 := by
    rw [low_around hm]
    split <;> linarith
  rw [mem_around_iff] at h
  split at h
  · next heven =>
    have habs : |r * 2 ^ (-e) - m| ≤ 1 / 2 := abs_le.mpr ⟨by linarith, by linarith⟩
    exact habs.lt_or_eq.imp_right fun heq => ⟨heq, heven⟩
  · exact .inl (abs_lt.mpr ⟨by linarith, by linarith⟩)

/-- Below a power of two they are at most a quarter of a unit away. -/
theorem Interval.Mem.quarter_le (hpower : m = fractionCount) : (m : ℚ) - 1 / 4 ≤ r * 2 ^ (-e) := by
  have hlow := low_around (e := e) hm
  rw [if_pos hpower] at hlow
  rw [mem_around_iff, hlow] at h
  split at h
  · exact h.1
  · exact h.1.le

theorem Interval.Mem.half_le : (m : ℚ) - 1 / 2 ≤ r * 2 ^ (-e) ∧ r * 2 ^ (-e) ≤ m + 1 / 2 := by
  have habs : |r * 2 ^ (-e) - m| ≤ 1 / 2 := (h.roundsTo hm).elim le_of_lt fun h => h.1.le
  have := abs_le.mp habs
  exact ⟨by linarith, by linarith⟩

theorem Interval.Mem.pos : 0 < r := by
  have hm' : (1 : ℚ) ≤ m := by exact_mod_cast hm
  have := (h.half_le hm).1
  exact (mul_pos_iff_of_pos_right (two_zpow_pos (-e))).mp (by linarith)

end

/-! ## Rounding to a double -/

section

variable {num den : Nat} (hnum : 0 < num) (hden : 0 < den)
include hnum hden

/-- A ratio is rounded in units of the last place of the doubles around it. -/
theorem nearestBits_of_exponent {e : Int} {k : Nat}
    (he : max (binaryOrder num den - 52) leastExponent = e) (h : RoundsTo (num / den * 2 ^ (-e)) k) :
    nearestBits num den = min infinityBits ((e - leastExponent).toNat * fractionCount + k) := by
  rw [← ratio_scaled] at h
  have hquotient : roundQuotient (scaled num den (-e)).1 (scaled num den (-e)).2 = k :=
    roundQuotient_of_roundsTo (scaled_pos num hden (-e)) h
  rw [nearestBits, if_neg hnum.ne']
  dsimp only
  rw [he, hquotient]

theorem binaryOrder_of_scaled {e k : Int} (hlow : (2 : ℚ) ^ k ≤ num / den * 2 ^ (-e))
    (hhigh : (num / den * 2 ^ (-e) : ℚ) < 2 ^ (k + 1)) : binaryOrder num den = k + e := by
  rw [zpow_neg, ← div_eq_mul_inv, le_div_iff₀ (two_zpow_pos e), ← zpow_add₀ two_ne_zero] at hlow
  rw [zpow_neg, ← div_eq_mul_inv, div_lt_iff₀ (two_zpow_pos e), ← zpow_add₀ two_ne_zero,
    add_right_comm] at hhigh
  exact binaryOrder_eq hnum hden hlow hhigh

end

/-- **A ratio in the rounding interval of a finite double is rounded to that double.** -/
theorem nearestBits_of_mem {m : Nat} {e : Int} (hfinite : IsFinite m e) (hm : 0 < m) {num den : Nat}
    (hnum : 0 < num) (hden : 0 < den) (h : (Interval.around m e).Mem (num / den)) :
    nearestBits num den = finiteBits m e := by
  obtain ⟨hlow, hhigh⟩ := h.half_le hm
  have hlt : (m : ℚ) + 1 ≤ 2 * fractionCount := by exact_mod_cast hfinite.lt
  have hcount : (fractionCount : ℚ) = 2 ^ (52 : Int) := by norm_num [fractionCount]
  have hcount' : (2 : ℚ) ^ ((52 : Int) + 1) = 2 * fractionCount := by norm_num [fractionCount]
  have hbits : min infinityBits (finiteBits m e) = finiteBits m e := by
    have hlt := hfinite.lt
    have hle := hfinite.le
    unfold finiteBits infinityBits
    unfold leastExponent fractionCount at *
    omega
  by_cases hnormal : (fractionCount : ℚ) ≤ num / den * 2 ^ (-e)
  · have horder : binaryOrder num den = 52 + e :=
      binaryOrder_of_scaled hnum hden (hcount ▸ hnormal) (by rw [hcount']; linarith)
    have hexponent : max (binaryOrder num den - 52) leastExponent = e := by
      have := hfinite.least
      omega
    exact (nearestBits_of_exponent hnum hden hexponent (h.roundsTo hm)).trans hbits
  · rw [not_le] at hnormal
    by_cases hleast : e = leastExponent
    · -- Below the least power of two the exponent is the least one.
      have horder : binaryOrder num den < 52 + e := by
        have hle := (binaryOrder_bounds hnum hden).1
        rw [hcount, zpow_neg, ← div_eq_mul_inv, div_lt_iff₀ (two_zpow_pos e),
          ← zpow_add₀ two_ne_zero] at hnormal
        exact (zpow_lt_zpow_iff_right₀ (one_lt_two (α := ℚ))).mp (hle.trans_lt hnormal)
      have hexponent : max (binaryOrder num den - 52) leastExponent = e := by omega
      exact (nearestBits_of_exponent hnum hden hexponent (h.roundsTo hm)).trans hbits
    · -- Just below a power of two the ratio is rounded up to it in smaller units, and carries.
      have hpower : m = fractionCount := by
        have hge := hfinite.normal.resolve_left hleast
        have : (m : ℚ) < fractionCount + 1 := by linarith
        have : m < fractionCount + 1 := by exact_mod_cast this
        omega
      have hquarter := h.quarter_le hm hpower
      rw [hpower] at hquarter
      have hhalf : (2 : ℚ) ^ ((51 : Int) + 1) = fractionCount := by norm_num [fractionCount]
      have hhalf' : (2 : ℚ) ^ (51 : Int) ≤ fractionCount - 1 / 4 := by norm_num [fractionCount]
      have horder : binaryOrder num den = 51 + e :=
        binaryOrder_of_scaled hnum hden (hhalf'.trans hquarter) (by rwa [hhalf])
      have hexponent : max (binaryOrder num den - 52) leastExponent = e - 1 := by
        have := hfinite.least
        omega
      have hdouble : (num / den : ℚ) * 2 ^ (-(e - 1)) = 2 * (num / den * 2 ^ (-e)) := by
        rw [show -(e - 1) = -e + 1 by ring, zpow_add₀ two_ne_zero, zpow_one]
        ring
      have hrounds : RoundsTo (num / den * 2 ^ (-(e - 1))) (2 * fractionCount) := by
        have habs : |(num / den * 2 ^ (-(e - 1)) : ℚ) - (2 * fractionCount : Nat)| ≤ 1 / 2 := by
          rw [hdouble]
          push_cast
          exact abs_le.mpr ⟨by linarith, by linarith⟩
        exact habs.lt_or_eq.imp_right fun heq => ⟨heq, Nat.mul_mod_right 2 _⟩
      have hcarry : (e - 1 - leastExponent).toNat * fractionCount + 2 * fractionCount = finiteBits m e := by
        have := hfinite.least
        unfold finiteBits
        rw [hpower]
        unfold leastExponent fractionCount at *
        omega
      rw [nearestBits_of_exponent hnum hden hexponent hrounds, hcarry, hbits]

/-! ## Decimals -/

theorem toDigits_bounds {n : Nat} (hn : 0 < n) :
    10 ^ ((Nat.toDigits 10 n).length - 1) ≤ n ∧ n < 10 ^ (Nat.toDigits 10 n).length := by
  have hlength := Nat.length_toDigits_pos (b := 10) (n := n)
  refine ⟨?_, (Nat.length_toDigits_le_iff (by decide) hlength).mp (Nat.le_refl _)⟩
  by_cases hone : (Nat.toDigits 10 n).length = 1
  · rw [hone]
    exact hn
  · refine not_lt.mp fun hlt => ?_
    have := (Nat.length_toDigits_le_iff (b := 10) (by decide) (by omega)).mpr hlt
    omega

/-- The numbers that doubles are near to have at most so many digits before and after the point. -/
theorem Interval.Mem.bounds {m : Nat} {e : Int} (hfinite : IsFinite m e) (hm : 0 < m) {r : ℚ}
    (h : (Interval.around m e).Mem r) : (10 : ℚ) ^ (-400 : Int) < r ∧ r < 10 ^ (400 : Int) := by
  obtain ⟨hlow, hhigh⟩ := h.half_le hm
  have hm' : (1 : ℚ) ≤ m := by exact_mod_cast hm
  have hlt : (m : ℚ) + 1 ≤ 2 ^ (53 : Int) := by
    rw [show (2 : ℚ) ^ (53 : Int) = 2 * fractionCount by norm_num [fractionCount]]
    exact_mod_cast hfinite.lt
  have htwo : (2 : ℚ) ^ (1200 : Int) ≤ 10 ^ (400 : Int) := by
    rw [show (1200 : Int) = 3 * 400 by rfl, zpow_mul]
    exact zpow_le_zpow_left₀ (by norm_num) (by norm_num) (by norm_num)
  have htwo' : (10 : ℚ) ^ (-400 : Int) ≤ 2 ^ (-1200 : Int) := by
    rw [zpow_neg, zpow_neg]
    exact inv_anti₀ (two_zpow_pos 1200) htwo
  have hunit : r = r * 2 ^ (-e) * 2 ^ e := by
    rw [mul_assoc, ← zpow_add₀ two_ne_zero, neg_add_cancel, zpow_zero, mul_one]
  constructor
  · refine htwo'.trans_lt ?_
    calc (2 : ℚ) ^ (-1200 : Int) < 2 ^ (e + -1) :=
          zpow_lt_zpow_right₀ one_lt_two (by have := hfinite.least; unfold leastExponent at this; omega)
      _ = 1 / 2 * 2 ^ e := by rw [zpow_add₀ two_ne_zero, zpow_neg_one]; ring
      _ ≤ r * 2 ^ (-e) * 2 ^ e := mul_le_mul_of_nonneg_right (by linarith) (two_zpow_pos e).le
      _ = r := hunit.symm
  · refine lt_of_lt_of_le ?_ htwo
    calc r = r * 2 ^ (-e) * 2 ^ e := hunit
      _ < 2 ^ (53 : Int) * 2 ^ e := mul_lt_mul_of_pos_right (by linarith) (two_zpow_pos e)
      _ = 2 ^ (53 + e) := (zpow_add₀ two_ne_zero 53 e).symm
      _ ≤ 2 ^ (1200 : Int) := zpow_le_zpow_right₀ one_le_two (by have := hfinite.le; omega)

section

variable {m : Nat} {e : Int} (hfinite : IsFinite m e) (hm : 0 < m) {n : Nat} {ten : Int}
  (h : (Interval.around m e).Mem (n * 10 ^ ten))
include hfinite hm h

/-- A decimal near a finite double is not too long to be expanded. -/
theorem size_of_mem (hn : 0 < n) : -400 < (Nat.toDigits 10 n).length + ten ∧
    (Nat.toDigits 10 n).length + ten ≤ 400 := by
  have hten := ten_zpow_pos ten
  obtain ⟨hlow, hhigh⟩ := h.bounds hfinite hm
  obtain ⟨hdigits, hdigits'⟩ := toDigits_bounds hn
  have hlength := Nat.length_toDigits_pos (b := 10) (n := n)
  generalize (Nat.toDigits 10 n).length = length at *
  constructor
  · have hlt : (n : ℚ) < 10 ^ (length : Int) := by
      rw [zpow_natCast]
      exact_mod_cast hdigits'
    have := hlow.trans (mul_lt_mul_of_pos_right hlt hten)
    rw [← zpow_add₀ (by norm_num)] at this
    exact (zpow_lt_zpow_iff_right₀ (by norm_num)).mp this
  · have hle : (10 : ℚ) ^ ((length - 1 : Nat) : Int) ≤ n := by
      rw [zpow_natCast]
      exact_mod_cast hdigits
    have := (mul_le_mul_of_nonneg_right hle hten.le).trans_lt hhigh
    rw [← zpow_add₀ (by norm_num)] at this
    have := (zpow_lt_zpow_iff_right₀ (by norm_num)).mp this
    omega

/-- **A decimal in the rounding interval of a finite double is read as that double.** -/
theorem ofDecimal_of_mem (negative : Bool) :
    ofDecimal negative n ten = ofBits negative (finiteBits m e) := by
  have hn : 0 < n := by
    have := (mul_pos_iff_of_pos_right (ten_zpow_pos ten)).mp (h.pos hm)
    exact_mod_cast this
  have hsize := size_of_mem hfinite hm h hn
  unfold ofDecimal
  dsimp only
  rw [if_neg (by omega), if_neg (by omega)]
  rcases zpow_cases 10 ten with ⟨hten, hpow⟩ | ⟨hten, hpow⟩
  · have hratio : (n * 10 ^ ten : ℚ) = (n * 10 ^ ten.toNat : Nat) / (1 : Nat) := by
      rw [hpow]
      push_cast
      rw [div_one]
    rw [hratio] at h
    have hbits := nearestBits_of_mem hfinite hm (Nat.mul_pos hn (Nat.pow_pos (by decide))) (by decide) h
    rw [if_pos hten]
    exact congrArg (ofBits negative) hbits
  · have hratio : (n * 10 ^ ten : ℚ) = n / (10 ^ (-ten).toNat : Nat) := by
      rw [hpow]
      push_cast
      rw [div_eq_mul_inv]
    rw [hratio] at h
    have hbits := nearestBits_of_mem hfinite hm hn (Nat.pow_pos (by decide)) h
    rw [if_neg hten]
    exact congrArg (ofBits negative) hbits

end

end GraphPatterns.Number
