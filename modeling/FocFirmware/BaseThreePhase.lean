import Mathlib.Analysis.SpecialFunctions.Trigonometric.Bounds
import Mathlib.Tactic.LinearCombination

/-! Three-phase quantities and their two components in a frame turned to an angle. A balanced set a quarter
turn ahead of the frame has the quadrature component only, and errors of the phases are at most doubled. -/

namespace FocFirmware.ThreePhase

/-- The axis of phase `k`. -/
noncomputable def axis (k : Fin 3) : ℝ := k.val * ((2 : ℕ) * Real.pi / (3 : ℕ))

/-- Two thirds of the sum, so that a set of amplitude one has a component of one. -/
noncomputable def component (weight : Fin 3 → ℝ) (v : Fin 3 → ℝ) : ℝ := (2 : ℕ) / (3 : ℕ) * ∑ k, v k * weight k

noncomputable def direct (th : ℝ) : (Fin 3 → ℝ) → ℝ := component fun k => Real.cos (th - axis k)

noncomputable def quadrature (th : ℝ) : (Fin 3 → ℝ) → ℝ := component fun k => -Real.sin (th - axis k)

/-- A set of amplitude `u` a quarter turn ahead of `th`, on a common offset. -/
noncomputable def balanced (offset u th : ℝ) (k : Fin 3) : ℝ := offset - u * Real.sin (th - axis k)

theorem axis_eq (k : Fin 3) : axis k = k.val * (2 * Real.pi / 3) := by rw [axis, Nat.cast_ofNat, Nat.cast_ofNat]

theorem component_eq (weight v : Fin 3 → ℝ) : component weight v = 2 / 3 * ∑ k, v k * weight k := by
  rw [component, Nat.cast_ofNat, Nat.cast_ofNat]

theorem cos_third : Real.cos (2 * Real.pi / 3) = -1 / 2 := by
  rw [show 2 * Real.pi / 3 = Real.pi - Real.pi / 3 by ring, Real.cos_pi_sub, Real.cos_pi_div_three]
  norm_num

theorem sin_third : Real.sin (2 * Real.pi / 3) = √3 / 2 := by
  rw [show 2 * Real.pi / 3 = Real.pi - Real.pi / 3 by ring, Real.sin_pi_sub, Real.sin_pi_div_three]

theorem cos_sub_axis (th : ℝ) :
    Real.cos (th - axis 0) = Real.cos th ∧ Real.cos (th - axis 1) = (√3 * Real.sin th - Real.cos th) / 2 ∧
      Real.cos (th - axis 2) = (-√3 * Real.sin th - Real.cos th) / 2 := by
  have hone : axis 1 = 2 * Real.pi / 3 := by simp [axis_eq]
  have htwo : th - axis 2 = th + 2 * Real.pi / 3 - 2 * Real.pi := by
    simp only [axis_eq, Fin.val_two, Nat.cast_ofNat]
    ring
  refine ⟨by simp [axis_eq], ?_, ?_⟩
  · rw [hone, Real.cos_sub, cos_third, sin_third]
    ring
  · rw [htwo, Real.cos_sub_two_pi, Real.cos_add, cos_third, sin_third]
    ring

theorem sin_sub_axis (th : ℝ) :
    Real.sin (th - axis 0) = Real.sin th ∧ Real.sin (th - axis 1) = (-√3 * Real.cos th - Real.sin th) / 2 ∧
      Real.sin (th - axis 2) = (√3 * Real.cos th - Real.sin th) / 2 := by
  have hone : axis 1 = 2 * Real.pi / 3 := by simp [axis_eq]
  have htwo : th - axis 2 = th + 2 * Real.pi / 3 - 2 * Real.pi := by
    simp only [axis_eq, Fin.val_two, Nat.cast_ofNat]
    ring
  refine ⟨by simp [axis_eq], ?_, ?_⟩
  · rw [hone, Real.sin_sub, cos_third, sin_third]
    ring
  · rw [htwo, Real.sin_sub_two_pi, Real.sin_add, cos_third, sin_third]
    ring

theorem balanced_eq (offset u th : ℝ) (k : Fin 3) :
    balanced offset u th k = offset + u * Real.cos (th + Real.pi / 2 - axis k) := by
  rw [balanced, add_sub_right_comm, Real.cos_add_pi_div_two]
  ring

/-- **Field orientation.** Ahead by a quarter turn is along the quadrature axis. -/
theorem direct_balanced (offset u th : ℝ) : direct th (balanced offset u th) = 0 := by
  obtain ⟨hc0, hc1, hc2⟩ := cos_sub_axis th
  obtain ⟨hs0, hs1, hs2⟩ := sin_sub_axis th
  have hroot : √3 * √3 = (3 : ℝ) := Real.mul_self_sqrt (by norm_num)
  simp only [direct, component_eq, balanced, Fin.sum_univ_three, hc0, hc1, hc2, hs0, hs1, hs2]
  linear_combination (u * Real.sin th * Real.cos th / 3) * hroot

theorem quadrature_balanced (offset u th : ℝ) : quadrature th (balanced offset u th) = u := by
  obtain ⟨hs0, hs1, hs2⟩ := sin_sub_axis th
  have hroot : √3 * √3 = (3 : ℝ) := Real.mul_self_sqrt (by norm_num)
  have hone := Real.sin_sq_add_cos_sq th
  simp only [quadrature, component_eq, balanced, Fin.sum_univ_three, hs0, hs1, hs2]
  linear_combination (u * Real.cos th ^ 2 / 3) * hroot + u * hone

theorem abs_component_sub_le {v w weight : Fin 3 → ℝ} {e : ℝ} (hweight : ∀ k, |weight k| ≤ 1) (he : ∀ k, |v k - w k| ≤ e) :
    |component weight v - component weight w| ≤ 2 * e := by
  have hterm : ∀ k, |(v k - w k) * weight k| ≤ e := by
    intro k
    rw [abs_mul]
    exact (mul_le_of_le_one_right (abs_nonneg _) (hweight k)).trans (he k)
  calc |component weight v - component weight w| = 2 / 3 * |∑ k, (v k - w k) * weight k| := by
        rw [component_eq, component_eq, ← mul_sub, ← Finset.sum_sub_distrib, abs_mul,
          abs_of_pos (by norm_num : (0 : ℝ) < 2 / 3)]
        simp only [sub_mul]
    _ ≤ 2 / 3 * ∑ k : Fin 3, e := by
        refine mul_le_mul_of_nonneg_left ?_ (by norm_num)
        exact (Finset.abs_sum_le_sum_abs _ _).trans (Finset.sum_le_sum fun k _ => hterm k)
    _ = 2 * e := by
        rw [Fin.sum_univ_three]
        ring

theorem abs_direct_sub_le (th : ℝ) {v w : Fin 3 → ℝ} {e : ℝ} (he : ∀ k, |v k - w k| ≤ e) :
    |direct th v - direct th w| ≤ 2 * e := abs_component_sub_le (fun _ => Real.abs_cos_le_one _) he

theorem abs_quadrature_sub_le (th : ℝ) {v w : Fin 3 → ℝ} {e : ℝ} (he : ∀ k, |v k - w k| ≤ e) :
    |quadrature th v - quadrature th w| ≤ 2 * e :=
  abs_component_sub_le (fun _ => (abs_neg _).trans_le (Real.abs_sin_le_one _)) he

/-- Turning the set by `d`, up to whole turns, moves each phase by no more than its amplitude times `d`. -/
theorem abs_balanced_sub_le {offset u th th' d : ℝ} (n : ℤ) (hu : 0 ≤ u) (hd : |th - th' - n * (2 * Real.pi)| ≤ d)
    (k : Fin 3) : |balanced offset u th k - balanced offset u th' k| ≤ u * d := by
  have hturn : Real.sin (th' - axis k) = Real.sin (th' - axis k + n * (2 * Real.pi)) :=
    (Real.sin_add_int_mul_two_pi _ n).symm
  have hsin := Real.abs_sin_sub_sin_le (th' - axis k + n * (2 * Real.pi)) (th - axis k)
  rw [show th' - axis k + n * (2 * Real.pi) - (th - axis k) = -(th - th' - n * (2 * Real.pi)) by ring, abs_neg] at hsin
  rw [balanced, balanced, sub_sub_sub_cancel_left, ← mul_sub, abs_mul, abs_of_nonneg hu, hturn]
  exact mul_le_mul_of_nonneg_left (hsin.trans hd) hu

end FocFirmware.ThreePhase
