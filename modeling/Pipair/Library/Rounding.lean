import Mathlib.Algebra.Order.Field.Power
import Mathlib.Data.Int.Log
import Mathlib.Data.Rat.Floor
import Mathlib.Tactic.FieldSimp
import Mathlib.Tactic.Linarith
import Mathlib.Tactic.Positivity
import Mathlib.Tactic.Ring

/-!
# Rounding to a binary format

Rationals are rounded to the nearest number with `p` binary digits, of two that are
as near to the one whose last digit is even. The range of the exponents is not
bounded, so neither very small nor very large numbers are treated specially.

Two numbers compare as their rounded values do when they are equal or lie further
apart than the errors of both (`round_le_round_iff`). Fractions with small terms
always do (`round_div_le_iff`).
-/

namespace Rounding

-- ---------------------------------------------------------------------------
-- Integers
-- ---------------------------------------------------------------------------

/-- The nearest integer; of two that are as near, the even one. -/
def nearest (x : ℚ) : ℤ :=
  if x - ⌊x⌋ < 1 / 2 then ⌊x⌋
  else if 1 / 2 < x - ⌊x⌋ then ⌊x⌋ + 1
  else if ⌊x⌋ % 2 = 0 then ⌊x⌋
  else ⌊x⌋ + 1

theorem abs_nearest_sub_le (x : ℚ) : |(nearest x : ℚ) - x| ≤ 1 / 2 := by
  have h0 : (⌊x⌋ : ℚ) ≤ x := Int.floor_le x
  have h1 : x < ⌊x⌋ + 1 := Int.lt_floor_add_one x
  rw [abs_le]
  unfold nearest
  split
  · constructor <;> linarith
  · next hlow =>
    split
    · push_cast
      constructor <;> linarith
    · split
      · constructor <;> linarith
      · push_cast
        constructor <;> linarith

@[simp] theorem nearest_intCast (n : ℤ) : nearest n = n := by
  simp [nearest]

-- ---------------------------------------------------------------------------
-- Binary digits
-- ---------------------------------------------------------------------------

/-- The unit in the last of the `p` digits of `x`. -/
def ulp (p : ℕ) (x : ℚ) : ℚ := 2 ^ (Int.log 2 |x| + 1 - p)

/-- The number with `p` binary digits that is nearest to `x`. -/
def round (p : ℕ) (x : ℚ) : ℚ := nearest (x / ulp p x) * ulp p x

section Round

variable {p : ℕ} {x y : ℚ}

theorem ulp_pos (p : ℕ) (x : ℚ) : 0 < ulp p x := by
  unfold ulp
  positivity

/-- Half a unit is at most the `2 ^ p`-th part. -/
theorem ulp_le (hx : x ≠ 0) : ulp p x / 2 ≤ |x| / 2 ^ p := by
  have hlog : (2 : ℚ) ^ Int.log 2 |x| ≤ |x| := Int.zpow_log_le_self (by norm_num) (abs_pos.mpr hx)
  rw [ulp, zpow_sub₀ (by norm_num), zpow_add₀ (by norm_num), zpow_natCast, zpow_one]
  calc (2 : ℚ) ^ Int.log 2 |x| * 2 / 2 ^ p / 2 = 2 ^ Int.log 2 |x| / 2 ^ p := by ring
    _ ≤ |x| / 2 ^ p := div_le_div_of_nonneg_right hlog (by positivity)

/-- **The error** is at most the `2 ^ p`-th part of the number. -/
theorem abs_round_sub_le (p : ℕ) (x : ℚ) : |round p x - x| ≤ |x| / 2 ^ p := by
  rcases eq_or_ne x 0 with rfl | hx
  · simp [round, nearest]
  have hu := ulp_pos p x
  calc |round p x - x| = |((nearest (x / ulp p x) : ℚ) - x / ulp p x) * ulp p x| := by
        rw [round, sub_mul, div_mul_cancel₀ _ hu.ne']
    _ = |(nearest (x / ulp p x) : ℚ) - x / ulp p x| * ulp p x := by
        rw [abs_mul, abs_of_pos hu]
    _ ≤ 1 / 2 * ulp p x := by
        exact mul_le_mul_of_nonneg_right (abs_nearest_sub_le _) hu.le
    _ ≤ |x| / 2 ^ p := by
        rw [one_div_mul_eq_div]
        exact ulp_le hx

/-- A multiple of the unit is not changed. -/
theorem round_of_eq_mul (n : ℤ) (h : x = n * ulp p x) : round p x = x := by
  have hu := ulp_pos p x
  have hn : x / ulp p x = n := by rw [div_eq_iff hu.ne', ← h]
  rw [round, hn, nearest_intCast, ← h]

/-- Integers with at most `p` digits are not changed. -/
theorem round_intCast {n : ℤ} (hn : |n| < 2 ^ p) : round p n = n := by
  rcases eq_or_ne n 0 with rfl | hne
  · exact round_of_eq_mul 0 (by simp)
  have hpos : (0 : ℚ) < |(n : ℚ)| := abs_pos.mpr (by exact_mod_cast hne)
  have hlt : |(n : ℚ)| < 2 ^ (p : ℤ) := by
    rw [zpow_natCast]
    exact_mod_cast hn
  -- the unit is a power of two that divides every integer
  have hlog : Int.log 2 |(n : ℚ)| < p := (Int.lt_zpow_iff_log_lt (by norm_num) hpos).mp hlt
  obtain ⟨k, hk⟩ := Int.eq_ofNat_of_zero_le (show 0 ≤ (p : ℤ) - (Int.log 2 |(n : ℚ)| + 1) by omega)
  refine round_of_eq_mul (n * 2 ^ k) ?_
  rw [ulp, show Int.log 2 |(n : ℚ)| + 1 - p = -(k : ℤ) by omega, zpow_neg, zpow_natCast]
  push_cast
  field_simp

theorem round_lt_round (h : (|x| + |y|) / 2 ^ p < y - x) : round p x < round p y := by
  have hx := (abs_le.mp (abs_round_sub_le p x)).2
  have hy := (abs_le.mp (abs_round_sub_le p y)).1
  rw [add_div] at h
  linarith

/-- **Comparison.** Numbers that are equal, or further apart than their errors, compare as
their rounded values. -/
theorem round_le_round_iff (h : x = y ∨ (|x| + |y|) / 2 ^ p < |y - x|) :
    round p x ≤ round p y ↔ x ≤ y := by
  rcases h with rfl | h
  · simp
  · rcases le_or_gt x y with hle | hlt
    · rw [abs_of_nonneg (sub_nonneg.mpr hle)] at h
      exact iff_of_true (round_lt_round h).le hle
    · rw [abs_of_neg (sub_neg.mpr hlt), neg_sub, add_comm] at h
      exact iff_of_false (round_lt_round h).not_ge hlt.not_ge

/-- Different fractions are apart by what their denominators allow. -/
theorem one_le_abs_sub_mul {a c : ℤ} {k q : ℕ} (hk : 0 < k) (hq : 0 < q)
    (hne : (c : ℚ) / q ≠ a / k) : 1 ≤ |(a : ℚ) / k - c / q| * (k * q) := by
  have hk' : (0 : ℚ) < k := by exact_mod_cast hk
  have hq' : (0 : ℚ) < q := by exact_mod_cast hq
  have hkq : (0 : ℚ) ≤ k * q := by positivity
  have heq : (a / k - c / q) * (k * q) = ((a * q - c * k : ℤ) : ℚ) := by
    push_cast
    field_simp
  rw [← abs_of_nonneg hkq, ← abs_mul, heq]
  have hint : a * q - c * k ≠ 0 := by
    intro h0
    refine hne ?_
    rw [h0, Int.cast_zero, mul_eq_zero, or_iff_left (by positivity), sub_eq_zero] at heq
    exact heq.symm
  exact_mod_cast Int.one_le_abs hint

/-- **Fractions** with small terms compare as their rounded values. -/
theorem round_div_le_iff {a c : ℤ} {k q : ℕ} (hk : 0 < k) (hq : 0 < q)
    (h : |a| * q + |c| * k < 2 ^ p) :
    round p (c / q) ≤ round p (a / k) ↔ (c : ℚ) / q ≤ a / k := by
  apply round_le_round_iff
  by_cases hne : (c : ℚ) / q = a / k
  · exact Or.inl hne
  right
  have hk' : (0 : ℚ) < k := by exact_mod_cast hk
  have hq' : (0 : ℚ) < q := by exact_mod_cast hq
  have hgap := one_le_abs_sub_mul hk hq hne
  have hsum : (|(c : ℚ) / q| + |(a : ℚ) / k|) * (k * q) = ((|a| * q + |c| * k : ℤ) : ℚ) := by
    rw [abs_div, abs_div, abs_of_pos hk', abs_of_pos hq']
    push_cast
    field_simp
    ring
  have hbound : (|(c : ℚ) / q| + |(a : ℚ) / k|) * (k * q) < 2 ^ p := by
    rw [hsum]
    exact_mod_cast h
  rw [div_lt_iff₀ (by positivity)]
  refine lt_of_mul_lt_mul_right ?_ (show (0 : ℚ) ≤ k * q by positivity)
  calc (|(c : ℚ) / q| + |(a : ℚ) / k|) * (k * q) < 2 ^ p := hbound
    _ = 1 * 2 ^ p := (one_mul _).symm
    _ ≤ |(a : ℚ) / k - c / q| * (k * q) * 2 ^ p := mul_le_mul_of_nonneg_right hgap (by positivity)
    _ = |(a : ℚ) / k - c / q| * 2 ^ p * (k * q) := by ring

theorem div_two_pow_le (p : ℕ) (hx : 0 ≤ x) : x / 2 ^ p ≤ x :=
  div_le_self hx (one_le_pow₀ (by norm_num))

theorem round_nonneg (hx : 0 ≤ x) : 0 ≤ round p x := by
  have herr := (abs_le.mp (abs_round_sub_le p x)).1
  rw [abs_of_nonneg hx] at herr
  have := div_two_pow_le p hx
  linarith

theorem round_nonpos (hx : x ≤ 0) : round p x ≤ 0 := by
  have herr := (abs_le.mp (abs_round_sub_le p x)).2
  rw [abs_of_nonpos hx] at herr
  have := div_two_pow_le p (neg_nonneg.mpr hx)
  linarith

end Round

-- ---------------------------------------------------------------------------
-- Errors before a floor
-- ---------------------------------------------------------------------------

/-- An error of less than one unit of the denominator does not change the floor of a
fraction that is not an integer. -/
theorem floor_eq_of_near {n : ℤ} {m : ℕ} (hm : 0 < m) (hdvd : ¬ (m : ℤ) ∣ n) {y : ℚ}
    (h : |y - n / m| < 1 / m) : ⌊y⌋ = n / m := by
  have hm' : (0 : ℚ) < m := by exact_mod_cast hm
  have hmod : 0 < n % m := lt_of_le_of_ne (Int.emod_nonneg _ (by omega))
    fun h0 => hdvd (Int.dvd_of_emod_eq_zero h0.symm)
  have hlt : n % m < m := Int.emod_lt_of_pos _ (by omega)
  have hdiv : m * (n / m) + n % m = n := Int.mul_ediv_add_emod n m
  -- one unit below the fraction is not below the quotient, one above not above the next
  have hlow : (m : ℚ) * (n / m : ℤ) + 1 ≤ n := by exact_mod_cast (by omega : m * (n / m) + 1 ≤ n)
  have hhigh : (n : ℚ) + 1 ≤ m * (n / m : ℤ) + m := by
    exact_mod_cast (by omega : n + 1 ≤ m * (n / m) + m)
  obtain ⟨h1, h2⟩ := abs_lt.mp h
  have hy1 : ((n : ℚ) - 1) / m < y := by rw [sub_div]; linarith
  have hy2 : y < ((n : ℚ) + 1) / m := by rw [add_div]; linarith
  rw [div_lt_iff₀ hm'] at hy1
  rw [lt_div_iff₀ hm'] at hy2
  rw [Int.floor_eq_iff]
  constructor
  · refine le_of_mul_le_mul_right ?_ hm'
    linarith
  · refine lt_of_mul_lt_mul_right ?_ hm'.le
    linarith

end Rounding
