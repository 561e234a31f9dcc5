import Mathlib.Analysis.Real.Pi.Bounds
import Mathlib.Analysis.SpecialFunctions.Complex.Arg
import Mathlib.Analysis.SpecialFunctions.Trigonometric.Bounds

/-! The direction of a vector near the unit circle. -/

namespace FocFirmware.Direction

/-- Angles with a positive cosine are not much larger than their sine. -/
theorem abs_le_mul_abs_sin {x : ℝ} (hx : |x| ≤ Real.pi) (hcos : 0 < Real.cos x) : |x| ≤ 1.6 * |Real.sin x| := by
  have hquarter : |x| ≤ Real.pi / 2 := by
    by_contra hlarge
    have hnonpos := Real.cos_nonpos_of_pi_div_two_le_of_le (not_le.mp hlarge).le (hx.trans (by linarith [Real.pi_pos]))
    rw [Real.cos_abs] at hnonpos
    linarith
  have hjordan := Real.mul_le_sin (abs_nonneg x) hquarter
  rw [← Real.abs_sin_eq_sin_abs_of_abs_le_pi hx] at hjordan
  have hpi : 1 / 1.6 ≤ 2 / Real.pi := by
    rw [div_le_div_iff₀ (by norm_num) Real.pi_pos]
    linarith [Real.pi_lt_d2]
  have hscaled := mul_le_mul_of_nonneg_right hpi (abs_nonneg x)
  linarith

/-- Up to whole turns, every angle is within a half turn. -/
theorem exists_abs_sub_le_pi (x : ℝ) : ∃ k : ℤ, |x - k * (2 * Real.pi)| ≤ Real.pi := by
  have hpos : 0 < 2 * Real.pi := by linarith [Real.pi_pos]
  refine ⟨round (x / (2 * Real.pi)), ?_⟩
  have hround := mul_le_mul_of_nonneg_right (abs_sub_round (x / (2 * Real.pi))) hpos.le
  rw [← abs_of_pos hpos, ← abs_mul, abs_of_pos hpos, sub_mul, div_mul_cancel₀ _ hpos.ne'] at hround
  linarith

/-- **A vector near a unit vector points nearly the same way.** -/
theorem abs_arg_sub_le {w : ℂ} {a e : ℝ} (he : e ≤ 1 / 10) (hre : |w.re - Real.cos a| ≤ e)
    (him : |w.im - Real.sin a| ≤ e) : ∃ k : ℤ, |w.arg - a - k * (2 * Real.pi)| ≤ 4 * e := by
  obtain ⟨k, hk⟩ := exists_abs_sub_le_pi (w.arg - a)
  refine ⟨k, ?_⟩
  have hnonneg : 0 ≤ e := (abs_nonneg _).trans hre
  have hterm : ∀ {x y : ℝ}, |x| ≤ e → |y| ≤ 1 → |x * y| ≤ e := by
    intro x y hx hy
    rw [abs_mul]
    exact (mul_le_mul hx hy (abs_nonneg y) hnonneg).trans_eq (mul_one e)
  obtain ⟨hre1, hre2⟩ := abs_le.mp (hterm hre (Real.abs_cos_le_one a))
  obtain ⟨hre3, hre4⟩ := abs_le.mp (hterm hre (Real.abs_sin_le_one a))
  obtain ⟨him1, him2⟩ := abs_le.mp (hterm him (Real.abs_cos_le_one a))
  obtain ⟨him3, him4⟩ := abs_le.mp (hterm him (Real.abs_sin_le_one a))
  have hunit := Real.sin_sq_add_cos_sq a
  -- the vector, turned back by `a`
  have hsin : ‖w‖ * Real.sin (w.arg - a - k * (2 * Real.pi)) = w.im * Real.cos a - w.re * Real.sin a := by
    rw [Real.sin_sub_int_mul_two_pi, Real.sin_sub, ← Complex.norm_mul_cos_arg, ← Complex.norm_mul_sin_arg]
    ring
  have hcos : ‖w‖ * Real.cos (w.arg - a - k * (2 * Real.pi)) = w.re * Real.cos a + w.im * Real.sin a := by
    rw [Real.cos_sub_int_mul_two_pi, Real.cos_sub, ← Complex.norm_mul_cos_arg, ← Complex.norm_mul_sin_arg]
    ring
  generalize w.arg - a - k * (2 * Real.pi) = x at *
  have hcosLow : 1 - 2 * e ≤ ‖w‖ * Real.cos x := by linarith
  have hsinHigh : |‖w‖ * Real.sin x| ≤ 2 * e := abs_le.mpr ⟨by linarith, by linarith⟩
  have hcosPos : 0 < Real.cos x := by
    by_contra hneg
    have hnonpos := mul_nonpos_of_nonneg_of_nonpos (norm_nonneg w) (not_lt.mp hneg)
    linarith
  have hsmall : |Real.sin x| * (1 - 2 * e) ≤ 2 * e := by
    calc |Real.sin x| * (1 - 2 * e) ≤ |Real.sin x| * (‖w‖ * Real.cos x) :=
          mul_le_mul_of_nonneg_left hcosLow (abs_nonneg _)
      _ = |‖w‖ * Real.sin x| * Real.cos x := by
          rw [abs_mul, abs_of_nonneg (norm_nonneg w)]
          ring
      _ ≤ 2 * e * 1 := mul_le_mul hsinHigh (Real.cos_le_one x) hcosPos.le (by linarith)
      _ = 2 * e := mul_one _
  have hshare : |Real.sin x| * (8 / 10) ≤ 2 * e := by
    refine le_trans (mul_le_mul_of_nonneg_left ?_ (abs_nonneg _)) hsmall
    linarith
  calc |x| ≤ 1.6 * |Real.sin x| := abs_le_mul_abs_sin hk hcosPos
    _ ≤ 4 * e := by linarith

/-- A narrow beam around the first axis, by the two coordinates. -/
theorem abs_arg_le_iff {w : ℂ} {θ : ℝ} (hpos : 0 < θ) (hacute : θ < Real.pi / 2) :
    |w.arg| ≤ θ ↔ |w.im| ≤ Real.tan θ * w.re := by
  have hcos : 0 < Real.cos θ := Real.cos_pos_of_mem_Ioo ⟨by linarith, hacute⟩
  have hdiff : ‖w‖ * Real.sin (θ - |w.arg|) = Real.cos θ * (Real.tan θ * w.re - |w.im|) := by
    have him : |w.im| = ‖w‖ * Real.sin |w.arg| := by
      rw [← Complex.norm_mul_sin_arg w, abs_mul, abs_norm, Real.abs_sin_eq_sin_abs_of_abs_le_pi (Complex.abs_arg_le_pi w)]
    rw [him, Real.sin_sub, Real.cos_abs, ← Complex.norm_mul_cos_arg, Real.tan_eq_sin_div_cos]
    field_simp
  have hrange := Complex.abs_arg_le_pi w
  constructor
  · intro hle
    have hsin : 0 ≤ Real.sin (θ - |w.arg|) :=
      Real.sin_nonneg_of_nonneg_of_le_pi (by linarith) (by linarith [abs_nonneg w.arg, Real.pi_pos])
    have hscaled := hdiff ▸ mul_nonneg (norm_nonneg w) hsin
    linarith [nonneg_of_mul_nonneg_right hscaled hcos]
  · intro hle
    by_contra hlarge
    have hne : w ≠ 0 := by
      rintro rfl
      rw [Complex.arg_zero, abs_zero] at hlarge
      linarith
    have hsin : Real.sin (θ - |w.arg|) < 0 := Real.sin_neg_of_neg_of_neg_pi_lt (by linarith) (by linarith)
    have hscaled := hdiff ▸ mul_neg_of_pos_of_neg (norm_pos_iff.mpr hne) hsin
    linarith [mul_nonneg hcos.le (sub_nonneg.mpr hle)]

/-- Vectors of one direction are proportional. -/
theorem mul_re_eq_of_arg_eq {w z : ℂ} (h : w.arg = z.arg) : w.im * z.re = z.im * w.re := by
  rw [← Complex.norm_mul_sin_arg w, ← Complex.norm_mul_cos_arg w, ← Complex.norm_mul_sin_arg z, ← Complex.norm_mul_cos_arg z, h]
  ring

end FocFirmware.Direction
