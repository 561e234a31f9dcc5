import FocFirmware.FocTransforms
import FocFirmware.SineAccuracy

/-! The measurement transforms against the output transforms. The Clarke pair is inverse exactly, rounded
root of three included; the Park pair scales by the squares of the two polynomials, which add to nearly one. -/

namespace FocFirmware

section Inverse

variable {K : Type*} [Field K] [LinearOrder K] [IsStrictOrderedRing K]

/-- The phase voltages are centred on half the supply. -/
theorem invClarkeTransform_sum (gUdc uAlpha uBeta : K) :
    let phase := invClarkeTransform gUdc uAlpha uBeta
    phase.1 + phase.2.1 + phase.2.2 = 3 * gUdc / 2 := by
  simp only [invClarkeTransform]
  ring

theorem clarkeTransform_invClarke (gUdc uAlpha uBeta : K) :
    let phase := invClarkeTransform gUdc uAlpha uBeta
    clarkeTransform (phase.1 - gUdc / 2) (phase.2.1 - gUdc / 2) = (uAlpha, uBeta) := by
  have hroot : (focSqrt3 : K) ≠ 0 := focSqrt3_pos.ne'
  ext
  · simp only [clarkeTransform, invClarkeTransform]
    ring
  · simp only [clarkeTransform, invClarkeTransform]
    field_simp
    ring

variable [FloorRing K]

omit [IsStrictOrderedRing K] in
/-- Both rotations use the same two polynomials, so together they only scale. -/
theorem parkTransform_invPark (uq ud th : K) :
    let volt := invParkTransform uq ud th
    parkTransform volt.1 volt.2 th =
      (ud * (fastSin th ^ 2 + fastCos th ^ 2), uq * (fastSin th ^ 2 + fastCos th ^ 2)) := by
  ext
  · simp only [parkTransform, invParkTransform]
    ring
  · simp only [parkTransform, invParkTransform]
    ring

end Inverse

/-- **The measurement transforms undo the output transforms.** -/
theorem measurement_undoes_output (uq ud gUdc th : ℝ) (hlow : 0 ≤ th) (hhigh : th ≤ foc2Pi) :
    let volt := invParkTransform uq ud th
    let phase := invClarkeTransform gUdc volt.1 volt.2
    let meas := clarkeTransform (phase.1 - gUdc / 2) (phase.2.1 - gUdc / 2)
    let current := parkTransform meas.1 meas.2 th
    phase.1 + phase.2.1 + phase.2.2 = 3 * gUdc / 2 ∧ meas = volt ∧
      |current.1 - ud| ≤ 1e-5 * |ud| ∧ |current.2 - uq| ≤ 1e-5 * |uq| := by
  intro volt phase meas current
  have hmeas : meas = volt := clarkeTransform_invClarke gUdc volt.1 volt.2
  have hcurrent : current = (ud * (fastSin th ^ 2 + fastCos th ^ 2), uq * (fastSin th ^ 2 + fastCos th ^ 2)) := by
    rw [← parkTransform_invPark, ← show meas = invParkTransform uq ud th from hmeas]
  have hturn : th ≤ 7 := hhigh.trans (by norm_num [foc2Pi])
  have hth : |th| ≤ 7 := abs_le.mpr ⟨by linarith, hturn⟩
  obtain ⟨hsin, hcos⟩ := near_within_turn hth
  have hunit := sq_add_sq_near hsin hcos (Real.sin_sq_add_cos_sq th)
  have hscaled : ∀ u : ℝ, |u * (fastSin th ^ 2 + fastCos th ^ 2) - u| ≤ 1e-5 * |u| := by
    intro u
    rw [show u * (fastSin th ^ 2 + fastCos th ^ 2) - u = (fastSin th ^ 2 + fastCos th ^ 2 - 1) * u by ring, abs_mul]
    exact mul_le_mul_of_nonneg_right hunit (abs_nonneg u)
  rw [hcurrent]
  exact ⟨invClarkeTransform_sum _ _ _, hmeas, hscaled ud, hscaled uq⟩

theorem measurement_undoes_output_at_one :
    let volt := invParkTransform 6 (-2) (1 : ℝ)
    let phase := invClarkeTransform 24 volt.1 volt.2
    let meas := clarkeTransform (phase.1 - 24 / 2) (phase.2.1 - 24 / 2)
    let current := parkTransform meas.1 meas.2 1
    phase.1 + phase.2.1 + phase.2.2 = 3 * 24 / 2 ∧ meas = volt ∧
      |current.1 - -2| ≤ 1e-5 * |(-2 : ℝ)| ∧ |current.2 - 6| ≤ 1e-5 * |(6 : ℝ)| :=
  measurement_undoes_output 6 (-2) 24 1 (by norm_num) (by norm_num [foc2Pi])

end FocFirmware
