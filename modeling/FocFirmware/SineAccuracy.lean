import FocFirmware.BaseBernstein
import FocFirmware.BaseTrigSeries
import FocFirmware.SineFast
import Mathlib.Analysis.Real.Pi.Bounds
import Mathlib.Analysis.SpecialFunctions.Trigonometric.Bounds

/-! How far `fast_sin` and `fast_cos` are from sine and cosine. On one half turn either side the two
polynomials are compared with the series by their Bernstein coefficients; the folding moves the argument
by a whole number of turns, each off by twice the error of the rounded half turn. -/

namespace FocFirmware

open Bernstein TrigSeries Remainder

section HalfTurn

/-- The coefficients of `fast_sin` less those of the series, over the square of the argument. -/
def sinGap (j : ℕ) : ℚ :=
  [0, -0.16666666 + 1 / 6, 0.0083333179 - 1 / 120, -0.00019840381 + 1 / 5040, 2.7532926e-06 - 1 / 362880,
    -2.4703144e-08 + 1 / 39916800, 1.3528548e-10 - 1 / 6227020800, 1 / 1307674368000, -1 / 355687428096000,
    1 / 121645100408832000].getD j 0

def cosGap (j : ℕ) : ℚ :=
  [0, -0.49999991 + 1 / 2, 0.041666519 - 1 / 24, -0.0013887906 + 1 / 720, 2.4771643e-05 - 1 / 40320,
    -2.7093486e-07 + 1 / 3628800, 1.7290616e-09 - 1 / 479001600, 1 / 87178291200, -1 / 20922789888000,
    1 / 6402373705728000].getD j 0

theorem sinGap_coefficients : ∀ k < 10, |coefficient sinGap 9 9.8703 k| ≤ 3e-8 := by decide +kernel

theorem cosGap_coefficients : ∀ k < 10, |coefficient cosGap 9 9.8703 k| ≤ 4.4e-7 := by decide +kernel

theorem sub_sinSum (y : ℝ) : y + y * y * y * f1 (y * y) - sinSum 10 y = y * evalPoly sinGap 9 (y ^ 2) := by
  simp only [sinSum, evalPoly, sinGap, Finset.sum_range_succ, Finset.sum_range_zero, f1, List.getD_cons_zero,
    List.getD_cons_succ]
  norm_num [Nat.factorial]
  ring

theorem sub_cosSum (y : ℝ) : 1 + y * y * f2 (y * y) - cosSum 10 y = evalPoly cosGap 9 (y ^ 2) := by
  simp only [cosSum, evalPoly, cosGap, Finset.sum_range_succ, Finset.sum_range_zero, f2, List.getD_cons_zero,
    List.getD_cons_succ]
  norm_num [Nat.factorial]
  ring

variable {y : ℝ} (hy : |y| ≤ 3.1417)

include hy

theorem sq_le_of_abs_le : y ^ 2 ≤ ((9.8703 : ℚ) : ℝ) := by
  have hsq : y ^ 2 ≤ 3.1417 ^ 2 := sq_le_sq' (abs_le.mp hy).1 (abs_le.mp hy).2
  norm_num at hsq ⊢
  linarith

theorem remainder_small : |y| ^ (2 * 10) / (2 * 10).factorial * 2 ≤ 1e-8 := by
  have hpow : |y| ^ (2 * 10) ≤ 3.1417 ^ (2 * 10) := pow_le_pow_left₀ (abs_nonneg y) hy _
  calc |y| ^ (2 * 10) / (2 * 10).factorial * 2 ≤ 3.1417 ^ (2 * 10) / (2 * 10).factorial * 2 := by gcongr
    _ ≤ 1e-8 := by norm_num [Nat.factorial]

theorem ratio_small : |y| / (2 * (10 : ℕ) + 1) ≤ 1 / 2 := by
  rw [div_le_iff₀ (by norm_num)]
  norm_num at hy ⊢
  linarith

theorem sinPoly_near : |y + y * y * y * f1 (y * y) - Real.sin y| ≤ 1.1e-7 := by
  have hgap : |evalPoly sinGap 9 (y ^ 2)| ≤ ((3e-8 : ℚ) : ℝ) :=
    abs_evalPoly_le (by norm_num) sinGap_coefficients (sq_nonneg y) (sq_le_of_abs_le hy)
  have hseries := (abs_sin_sub_le (ratio_small hy)).trans (remainder_small hy)
  have hsplit : y + y * y * y * f1 (y * y) - Real.sin y =
      y * evalPoly sinGap 9 (y ^ 2) - (Real.sin y - sinSum 10 y) := by
    rw [← sub_sinSum]
    ring
  have hproduct : |y| * |evalPoly sinGap 9 (y ^ 2)| ≤ 3.1417 * ((3e-8 : ℚ) : ℝ) :=
    mul_le_mul hy hgap (abs_nonneg _) (by norm_num)
  calc |y + y * y * y * f1 (y * y) - Real.sin y|
      ≤ |y * evalPoly sinGap 9 (y ^ 2)| + |Real.sin y - sinSum 10 y| := hsplit ▸ abs_sub _ _
    _ ≤ 3.1417 * ((3e-8 : ℚ) : ℝ) + 1e-8 := add_le_add (abs_mul y _ ▸ hproduct) hseries
    _ ≤ 1.1e-7 := by norm_num

theorem cosPoly_near : |1 + y * y * f2 (y * y) - Real.cos y| ≤ 4.5e-7 := by
  have hgap : |evalPoly cosGap 9 (y ^ 2)| ≤ ((4.4e-7 : ℚ) : ℝ) :=
    abs_evalPoly_le (by norm_num) cosGap_coefficients (sq_nonneg y) (sq_le_of_abs_le hy)
  have hseries := (abs_cos_sub_le (ratio_small hy)).trans (remainder_small hy)
  have hsplit : 1 + y * y * f2 (y * y) - Real.cos y = evalPoly cosGap 9 (y ^ 2) - (Real.cos y - cosSum 10 y) := by
    rw [← sub_cosSum]
    ring
  calc |1 + y * y * f2 (y * y) - Real.cos y|
      ≤ |evalPoly cosGap 9 (y ^ 2)| + |Real.cos y - cosSum 10 y| := hsplit ▸ abs_sub _ _
    _ ≤ ((4.4e-7 : ℚ) : ℝ) + 1e-8 := add_le_add hgap hseries
    _ ≤ 4.5e-7 := by norm_num

end HalfTurn

section Folding

/-- The folded argument differs from the argument by a whole number of turns of `2 * mPi`. -/
structure Folded (x y : ℝ) (m : ℤ) : Prop where
  even : Even m
  eq_sub : y = x - m * mPi
  near_zero : |y| ≤ 3.1417
  turns_le : |(m : ℝ)| ≤ 0.31830988 * |x| + 1

/-- Before the odd half turn is moved: the half turns taken off leave little more than one. -/
theorem rest_abs_le {x : ℝ} (hx : |x| ≤ 1000) : |x - truncToInt (x * 0.31830988) * mPi| ≤ 3.1417 := by
  have hrest := abs_sub_truncToInt_le (x * 0.31830988)
  have hturns := abs_truncToInt_le (x * 0.31830988)
  rw [abs_mul, abs_of_pos (by norm_num : (0 : ℝ) < 0.31830988)] at hturns
  -- in half turns: at most one, and the error of the rounded constants once per half turn
  have hscaled : |0.31830988 * (x - truncToInt (x * 0.31830988) * mPi)| ≤ 1.00002 := by
    have hsplit : 0.31830988 * (x - truncToInt (x * 0.31830988) * mPi) =
        (x * 0.31830988 - truncToInt (x * 0.31830988)) + truncToInt (x * 0.31830988) * (1 - 0.31830988 * mPi) := by ring
    have herror : |(1 : ℝ) - 0.31830988 * mPi| ≤ 4e-8 := by
      rw [mPi, abs_le]
      norm_num
    calc |0.31830988 * (x - truncToInt (x * 0.31830988) * mPi)|
        ≤ 1 + |(truncToInt (x * 0.31830988) : ℝ)| * |1 - 0.31830988 * mPi| := by
          rw [hsplit, ← abs_mul]
          exact (abs_add_le _ _).trans (add_le_add hrest le_rfl)
      _ ≤ 1 + (318.30988) * 4e-8 := by
          refine add_le_add le_rfl (mul_le_mul (hturns.trans ?_) herror (abs_nonneg _) (by norm_num))
          linarith
      _ ≤ 1.00002 := by norm_num
  rw [abs_mul, abs_of_pos (by norm_num : (0 : ℝ) < 0.31830988)] at hscaled
  linarith

theorem foldHalfTurns_folded {x : ℝ} (hx : |x| ≤ 1000) : ∃ m : ℤ, Folded x (foldHalfTurns x) m := by
  have hrest := rest_abs_le hx
  have hturns := abs_truncToInt_le (x * 0.31830988)
  rw [abs_mul, abs_of_pos (by norm_num : (0 : ℝ) < 0.31830988), mul_comm |x|] at hturns
  have hnext : ∀ d : ℤ, |(d : ℝ)| ≤ 1 → |((truncToInt (x * 0.31830988) + d : ℤ) : ℝ)| ≤ 0.31830988 * |x| + 1 := by
    intro d hd
    push_cast
    exact (abs_add_le _ _).trans (add_le_add hturns hd)
  unfold foldHalfTurns
  simp only
  generalize truncToInt (x * 0.31830988) = si at *
  obtain ⟨hlow, hhigh⟩ := abs_le.mp hrest
  split_ifs with hodd hpos
  · refine ⟨si + 1, Int.even_iff.mpr (by omega), ?_, ?_, hnext 1 (by norm_num)⟩
    · push_cast
      ring
    · rw [mPi] at *
      exact abs_le.mpr ⟨by linarith, by linarith⟩
  · refine ⟨si + -1, Int.even_iff.mpr (by omega), ?_, ?_, hnext (-1) (by norm_num)⟩
    · push_cast
      ring
    · rw [mPi] at *
      exact abs_le.mpr ⟨by linarith, by linarith⟩
  · exact ⟨si, Int.even_iff.mpr (by omega), rfl, hrest, hturns.trans (by linarith)⟩

/-- The error of the rounded half turn, once for each half turn taken off. -/
theorem Folded.shift_le {x y : ℝ} {m : ℤ} (h : Folded x y m) : |m * (Real.pi - mPi)| ≤ 5.4e-8 * (0.31830988 * |x| + 1) := by
  have hpi : |Real.pi - mPi| ≤ 5.4e-8 := by
    rw [mPi, abs_le]
    constructor <;> linarith [Real.pi_gt_d20, Real.pi_lt_d20]
  rw [abs_mul, mul_comm (5.4e-8 : ℝ)]
  exact mul_le_mul h.turns_le hpi (abs_nonneg _) ((abs_nonneg _).trans h.turns_le)

/-- The folded argument is the shifted one, less whole turns. -/
theorem Folded.eq_shift {x y : ℝ} {m : ℤ} (h : Folded x y m) :
    ∃ k : ℤ, y = x + m * (Real.pi - mPi) - k * (2 * Real.pi) := by
  obtain ⟨k, hk⟩ := h.even
  refine ⟨k, ?_⟩
  rw [h.eq_sub, hk]
  push_cast
  ring

theorem Folded.sin_near {x y : ℝ} {m : ℤ} (h : Folded x y m) : |Real.sin y - Real.sin x| ≤ |m * (Real.pi - mPi)| := by
  obtain ⟨k, hy⟩ := h.eq_shift
  rw [hy, Real.sin_sub_int_mul_two_pi]
  apply (Real.abs_sin_sub_sin_le _ _).trans_eq
  rw [add_sub_cancel_left]

theorem Folded.cos_near {x y : ℝ} {m : ℤ} (h : Folded x y m) : |Real.cos y - Real.cos x| ≤ |m * (Real.pi - mPi)| := by
  obtain ⟨k, hy⟩ := h.eq_shift
  rw [hy, Real.cos_sub_int_mul_two_pi]
  apply (Real.abs_cos_sub_cos_le _ _).trans_eq
  rw [add_sub_cancel_left]

theorem fastSin_near {x : ℝ} (hx : |x| ≤ 1000) : |fastSin x - Real.sin x| ≤ 2e-7 + 2e-8 * |x| := by
  obtain ⟨m, hfolded⟩ := foldHalfTurns_folded hx
  calc |fastSin x - Real.sin x|
      ≤ |fastSin x - Real.sin (foldHalfTurns x)| + |Real.sin (foldHalfTurns x) - Real.sin x| := abs_sub_le _ _ _
    _ ≤ 1.1e-7 + 5.4e-8 * (0.31830988 * |x| + 1) :=
        add_le_add (sinPoly_near hfolded.near_zero) (hfolded.sin_near.trans hfolded.shift_le)
    _ ≤ 2e-7 + 2e-8 * |x| := by linarith [abs_nonneg x]

theorem fastCos_near {x : ℝ} (hx : |x| ≤ 1000) : |fastCos x - Real.cos x| ≤ 6e-7 + 2e-8 * |x| := by
  obtain ⟨m, hfolded⟩ := foldHalfTurns_folded hx
  calc |fastCos x - Real.cos x|
      ≤ |fastCos x - Real.cos (foldHalfTurns x)| + |Real.cos (foldHalfTurns x) - Real.cos x| := abs_sub_le _ _ _
    _ ≤ 4.5e-7 + 5.4e-8 * (0.31830988 * |x| + 1) :=
        add_le_add (cosPoly_near hfolded.near_zero) (hfolded.cos_near.trans hfolded.shift_le)
    _ ≤ 6e-7 + 2e-8 * |x| := by linarith [abs_nonneg x]

/-- On a little more than one turn either side. -/
theorem near_within_turn {x : ℝ} (hx : |x| ≤ 7) : |fastSin x - Real.sin x| ≤ 1e-6 ∧ |fastCos x - Real.cos x| ≤ 1e-6 := by
  refine ⟨(fastSin_near (by linarith)).trans ?_, (fastCos_near (by linarith)).trans ?_⟩ <;> linarith

end Folding

/-- Near a point of the unit circle the squares nearly add to one. -/
theorem sq_add_sq_near {sn cs y x : ℝ} (hsn : |sn - y| ≤ 1e-6) (hcs : |cs - x| ≤ 1e-6) (hunit : y ^ 2 + x ^ 2 = 1) :
    |sn ^ 2 + cs ^ 2 - 1| ≤ 1e-5 := by
  have hgap : ∀ {a b : ℝ}, |a - b| ≤ 1e-6 → |b| ≤ 1 → |a ^ 2 - b ^ 2| ≤ 1e-6 * (2 + 1e-6) := by
    intro a b hab hb
    have hsum : |a + b| ≤ 2 + 1e-6 := by
      rw [show a + b = 2 * b + (a - b) by ring]
      refine (abs_add_le _ _).trans (add_le_add ?_ hab)
      rw [abs_mul, abs_two]
      linarith
    rw [sq_sub_sq, mul_comm, abs_mul]
    exact mul_le_mul hab hsum (abs_nonneg _) (by norm_num)
  have hy : |y| ≤ 1 := abs_le_one_iff_mul_self_le_one.mpr (by nlinarith [sq_nonneg x])
  have hx : |x| ≤ 1 := abs_le_one_iff_mul_self_le_one.mpr (by nlinarith [sq_nonneg y])
  calc |sn ^ 2 + cs ^ 2 - 1| = |sn ^ 2 - y ^ 2 + (cs ^ 2 - x ^ 2)| := by
        rw [← hunit]
        ring_nf
    _ ≤ 1e-6 * (2 + 1e-6) + 1e-6 * (2 + 1e-6) := (abs_add_le _ _).trans (add_le_add (hgap hsn hy) (hgap hcs hx))
    _ ≤ 1e-5 := by norm_num

/-- **Sine and cosine over many turns.** Up to a thousand radians either side the error grows with the
argument only through the rounded half turn. -/
theorem fast_sine_accuracy (x : ℝ) (hx : |x| ≤ 1000) :
    |fastSin x - Real.sin x| ≤ 2e-6 + 1e-7 * |x| ∧ |fastCos x - Real.cos x| ≤ 2e-6 + 1e-7 * |x| := by
  have hnonneg := abs_nonneg x
  refine ⟨(fastSin_near hx).trans ?_, (fastCos_near hx).trans ?_⟩ <;> linarith

theorem fast_sine_accuracy_at_minus_thousand :
    |fastSin (-1000) - Real.sin (-1000)| ≤ 2e-6 + 1e-7 * |(-1000 : ℝ)| ∧
      |fastCos (-1000) - Real.cos (-1000)| ≤ 2e-6 + 1e-7 * |(-1000 : ℝ)| :=
  fast_sine_accuracy (-1000) (by norm_num)

end FocFirmware
