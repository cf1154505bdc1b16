import Mathlib.Data.Int.Log
import Mathlib.Data.Rat.Floor
import Mathlib.Tactic.Linarith
import Mathlib.Tactic.FieldSimp
import Mathlib.Tactic.Positivity
import Mathlib.Tactic.NormNum

namespace DoubleRounding

/-- Round to the nearest integer, ties to even. -/
def roundEven (x : ℚ) : ℤ :=
  if x - ⌊x⌋ < 1 / 2 then ⌊x⌋
  else if 1 / 2 < x - ⌊x⌋ then ⌊x⌋ + 1
  else if ⌊x⌋ % 2 = 0 then ⌊x⌋
  else ⌊x⌋ + 1

/-- Spacing of the doubles around a positive normal `x`. -/
def ulp (x : ℚ) : ℚ := 2 ^ (Int.log 2 x - 52)

/-- The double nearest to a positive `x` in the normal range. -/
def fl (x : ℚ) : ℚ := roundEven (x / ulp x) * ulp x

theorem roundEven_error (x : ℚ) : |(roundEven x : ℚ) - x| ≤ 1 / 2 := by
  have h₁ := Int.floor_le x
  have h₂ := Int.lt_floor_add_one x
  unfold roundEven
  rw [abs_le]
  split
  next h => constructor <;> linarith
  next h =>
    split
    next h' => push_cast; constructor <;> linarith
    next h' =>
      split
      next => constructor <;> linarith
      next => push_cast; constructor <;> linarith

theorem ulp_pos (x : ℚ) : 0 < ulp x := zpow_pos (by norm_num) _

theorem ulp_le {x : ℚ} (hx : 0 < x) : ulp x ≤ x / 2 ^ 52 := by
  have hlog : (2 : ℚ) ^ Int.log 2 x ≤ x := by
    simpa using Int.zpow_log_le_self (b := 2) (by norm_num) hx
  unfold ulp
  rw [zpow_sub₀ (by norm_num)]
  exact div_le_div_of_nonneg_right hlog (by norm_num)

/-- Relative error of one rounding: half an ulp. -/
theorem fl_error {x : ℚ} (hx : 0 < x) : |fl x - x| ≤ x / 2 ^ 53 := by
  have hu := ulp_pos x
  have hcalc : fl x - x = (roundEven (x / ulp x) - x / ulp x) * ulp x := by
    unfold fl
    field_simp
  rw [hcalc, abs_mul, abs_of_pos hu]
  calc |(roundEven (x / ulp x) : ℚ) - x / ulp x| * ulp x ≤ 1 / 2 * ulp x :=
        mul_le_mul_of_nonneg_right (roundEven_error _) hu.le
    _ ≤ 1 / 2 * (x / 2 ^ 52) := mul_le_mul_of_nonneg_left (ulp_le hx) (by norm_num)
    _ = x / 2 ^ 53 := by ring

theorem fl_le {x : ℚ} (hx : 0 < x) : fl x ≤ x + x / 2 ^ 53 := by
  have h := (abs_le.mp (fl_error hx)).2
  linarith

theorem le_fl {x : ℚ} (hx : 0 < x) : x - x / 2 ^ 53 ≤ fl x := by
  have h := (abs_le.mp (fl_error hx)).1
  linarith

end DoubleRounding
