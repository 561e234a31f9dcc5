import Mathlib.Analysis.Normed.Module.Basic

/-! The radial retraction onto a ball: a vector that is too long is scaled back to the radius, the others
stay. In every normed space it moves two points apart by at most twice their distance. -/

namespace FocFirmware.Radial

/-- The factor that brings a vector of length `n` within the radius `r`. -/
noncomputable def factor (r n : ℝ) : ℝ := min 1 (r / n)

variable {r : ℝ}

theorem factor_nonneg {n : ℝ} (hr : 0 ≤ r) (hn : 0 ≤ n) : 0 ≤ factor r n := le_min zero_le_one (div_nonneg hr hn)

theorem factor_le_one (r n : ℝ) : factor r n ≤ 1 := min_le_left _ _

/-- The length after the retraction. -/
theorem factor_mul {n : ℝ} (hr : 0 ≤ r) (hn : 0 ≤ n) : factor r n * n = min n r := by
  rcases hn.eq_or_lt with rfl | hpos
  · rw [mul_zero, min_eq_left hr]
  · rw [factor, min_mul_of_nonneg _ _ hn, one_mul, div_mul_cancel₀ _ hpos.ne']

theorem factor_anti {n m : ℝ} (hr : 0 ≤ r) (hn : 0 < n) (hnm : n ≤ m) : factor r m ≤ factor r n :=
  min_le_min_left 1 (div_le_div_of_nonneg_left hr hn hnm)

/-- A vector is scaled back at most by as much as a longer one exceeds it. -/
theorem factor_gap {n m : ℝ} (hr : 0 ≤ r) (hn : 0 ≤ n) (hnm : n ≤ m) : |factor r m - factor r n| * n ≤ m - n := by
  rcases hn.eq_or_lt with rfl | hpos
  · simpa using hnm
  have hlen : factor r n * n ≤ factor r m * m := by
    rw [factor_mul hr hn, factor_mul hr (hn.trans hnm)]
    exact min_le_min_right r hnm
  have hscaled : factor r m * (m - n) ≤ 1 * (m - n) :=
    mul_le_mul_of_nonneg_right (factor_le_one r m) (sub_nonneg.mpr hnm)
  rw [abs_sub_comm, abs_of_nonneg (sub_nonneg.mpr (factor_anti hr hpos hnm))]
  linarith

section Retract

variable {E : Type*} [NormedAddCommGroup E] [NormedSpace ℝ E]

noncomputable def retract (r : ℝ) (x : E) : E := factor r ‖x‖ • x

theorem norm_retract_le (hr : 0 ≤ r) (x : E) : ‖retract r x‖ ≤ min ‖x‖ r := by
  rw [retract, norm_smul, Real.norm_of_nonneg (factor_nonneg hr (norm_nonneg x)), factor_mul hr (norm_nonneg x)]

/-- **The retraction moves two points apart by at most twice their distance.** -/
theorem norm_retract_sub_le (hr : 0 ≤ r) (x y : E) : ‖retract r x - retract r y‖ ≤ 2 * ‖x - y‖ := by
  wlog hle : ‖y‖ ≤ ‖x‖ generalizing x y
  · rw [norm_sub_rev, norm_sub_rev x]
    exact this y x (le_of_not_ge hle)
  have hsplit : retract r x - retract r y = factor r ‖x‖ • (x - y) + (factor r ‖x‖ - factor r ‖y‖) • y := by
    rw [retract, retract, smul_sub, sub_smul]
    abel
  have hfirst : ‖factor r ‖x‖ • (x - y)‖ ≤ 1 * ‖x - y‖ := by
    rw [norm_smul, Real.norm_of_nonneg (factor_nonneg hr (norm_nonneg x))]
    exact mul_le_mul_of_nonneg_right (factor_le_one _ _) (norm_nonneg _)
  have hsecond : ‖(factor r ‖x‖ - factor r ‖y‖) • y‖ ≤ ‖x‖ - ‖y‖ := by
    rw [norm_smul, Real.norm_eq_abs]
    exact factor_gap hr (norm_nonneg y) hle
  calc ‖retract r x - retract r y‖ ≤ 1 * ‖x - y‖ + (‖x‖ - ‖y‖) := by
        rw [hsplit]
        exact (norm_add_le _ _).trans (add_le_add hfirst hsecond)
    _ ≤ 2 * ‖x - y‖ := by linarith [norm_sub_norm_le x y]

end Retract

end FocFirmware.Radial
