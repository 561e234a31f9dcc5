import Mathlib.Analysis.Complex.Trigonometric
import Mathlib.Tactic.Linarith
import Mathlib.Tactic.Ring

/-! Partial sums of the series of sine and cosine with a bound of the remainder, read off the partial sums
of the complex exponential on the imaginary axis. -/

namespace FocFirmware.TrigSeries

open Finset Nat

/-- The first `n` terms of the series of cosine. -/
noncomputable def cosSum (n : ℕ) (y : ℝ) : ℝ := ∑ j ∈ range n, (-1) ^ j * y ^ (2 * j) / (2 * j)!

/-- The first `n` terms of the series of sine. -/
noncomputable def sinSum (n : ℕ) (y : ℝ) : ℝ := ∑ j ∈ range n, (-1) ^ j * y ^ (2 * j + 1) / (2 * j + 1)!

/-- Twice as many terms of the exponential series on the imaginary axis. -/
theorem expSum_eq (n : ℕ) (y : ℝ) :
    ∑ m ∈ range (2 * n), (y * Complex.I) ^ m / m ! = (cosSum n y : ℂ) + sinSum n y * Complex.I := by
  induction n with
  | zero => simp [cosSum, sinSum]
  | succ n ih =>
      have heven : ((y : ℂ) * Complex.I) ^ (2 * n) = (-1) ^ n * y ^ (2 * n) := by
        rw [mul_pow, pow_mul Complex.I, Complex.I_sq]
        ring
      have hodd : ((y : ℂ) * Complex.I) ^ (2 * n + 1) = (-1) ^ n * y ^ (2 * n + 1) * Complex.I := by
        rw [pow_succ, heven]
        ring
      rw [show 2 * (n + 1) = 2 * n + 1 + 1 by ring, sum_range_succ, sum_range_succ, ih, heven, hodd, cosSum, cosSum,
        sinSum, sinSum, sum_range_succ, sum_range_succ]
      push_cast
      ring

/-- Both remainders at once, as one complex number. -/
theorem norm_remainder_le {n : ℕ} {y : ℝ} (hy : |y| / (2 * n + 1) ≤ 1 / 2) :
    ‖(⟨Real.cos y - cosSum n y, Real.sin y - sinSum n y⟩ : ℂ)‖ ≤ |y| ^ (2 * n) / (2 * n)! * 2 := by
  have hnorm : ‖(y : ℂ) * Complex.I‖ = |y| := by simp
  have hratio : ‖(y : ℂ) * Complex.I‖ / (2 * n).succ ≤ 1 / 2 := by
    rw [hnorm]
    push_cast
    exact hy
  have hbound := Complex.exp_bound' hratio
  rw [hnorm, expSum_eq, Complex.exp_mul_I] at hbound
  refine le_trans (le_of_eq ?_) hbound
  rw [Complex.mk_eq_add_mul_I]
  push_cast
  ring_nf

theorem abs_cos_sub_le {n : ℕ} {y : ℝ} (hy : |y| / (2 * n + 1) ≤ 1 / 2) :
    |Real.cos y - cosSum n y| ≤ |y| ^ (2 * n) / (2 * n)! * 2 :=
  (Complex.abs_re_le_norm _).trans (norm_remainder_le hy)

theorem abs_sin_sub_le {n : ℕ} {y : ℝ} (hy : |y| / (2 * n + 1) ≤ 1 / 2) :
    |Real.sin y - sinSum n y| ≤ |y| ^ (2 * n) / (2 * n)! * 2 :=
  (Complex.abs_im_le_norm _).trans (norm_remainder_le hy)

end FocFirmware.TrigSeries
