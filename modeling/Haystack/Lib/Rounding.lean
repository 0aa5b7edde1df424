import Mathlib.Tactic
import Mathlib.Data.Int.Log

/-!
# Rounding to a binary floating-point format

A rational number is rounded to the nearest one with a given number of significant binary digits, to
an even last digit if there are two. The exponent is not bounded, so this is the format as long as
nothing over- or underflows.
-/

namespace Rounding

/-- The nearest integer, the even one of two. -/
def toInt (x : ℚ) : ℤ :=
  let f := ⌊x⌋
  if x - f < 1 / 2 ∨ (x - f = 1 / 2 ∧ f % 2 = 0) then f else f + 1

/-- The value of the last of `p + 1` significant digits. -/
def ulp (p : ℕ) (x : ℚ) : ℚ :=
  2 ^ (Int.log 2 |x| - p)

/-- The nearest number with `p + 1` significant digits. -/
def round (p : ℕ) (x : ℚ) : ℚ :=
  toInt (x / ulp p x) * ulp p x

lemma toInt_intCast (n : ℤ) : toInt n = n := by
  simp [toInt]

lemma floor_le_toInt (x : ℚ) : ⌊x⌋ ≤ toInt x := by
  unfold toInt
  dsimp only
  split <;> omega

lemma ulp_pos (p : ℕ) (x : ℚ) : 0 < ulp p x :=
  zpow_pos (by norm_num) _

@[simp] lemma round_one (p : ℕ) : round p 1 = 1 := by
  have hulp : ulp p 1 = (2 ^ p)⁻¹ := by simp [ulp]
  have hdiv : (1 : ℚ) / (2 ^ p)⁻¹ = ((2 ^ p : ℤ) : ℚ) := by simp
  rw [round, hulp, hdiv, toInt_intCast]
  push_cast
  exact mul_inv_cancel₀ (by positivity)

/-- A positive number stays positive. -/
lemma round_pos (p : ℕ) {x : ℚ} (hx : 0 < x) : 0 < round p x := by
  have hlog : (2 : ℚ) ^ Int.log 2 x ≤ x := by
    have := Int.zpow_log_le_self (b := 2) (r := x) (by norm_num) hx
    exact_mod_cast this
  have hone : 1 ≤ x / ulp p x := by
    rw [one_le_div (ulp_pos p x), ulp, abs_of_pos hx]
    refine le_trans ?_ hlog
    exact zpow_le_zpow_right₀ (by norm_num) (by omega)
  have hfloor : 1 ≤ ⌊x / ulp p x⌋ := Int.le_floor.2 (by exact_mod_cast hone)
  have hpos : 0 < toInt (x / ulp p x) := by
    have := floor_le_toInt (x / ulp p x)
    omega
  exact mul_pos (by exact_mod_cast hpos) (ulp_pos p x)

end Rounding
