import FocFirmware.BaseRuns
import FocFirmware.ControlCalibration
import FocFirmware.SineDirection

/-! Repeated calibrations. The drag that is to hold the rotor at electrical angle zero is applied at the
angle corrected by the old offset, so an ideal rotor is found at its true offset less the old one: right
from power-up, and undone by the next calibration. -/

namespace FocFirmware

open Remainder Runs Direction

section Model

variable {K : Type*} [Field K] [LinearOrder K] [FloorRing K]

/-- The alpha and beta voltages of `MotorApplyStrongDrag`. -/
def dragVector (ud gZeroOffset : K) : K × K :=
  let uq : K := 0
  let angleEl := angleGetCorrectedElec gZeroOffset 0
  (-uq * fastSin angleEl + ud * fastCos angleEl, uq * fastCos angleEl + ud * fastSin angleEl)

theorem motorApplyStrongDrag_eq (ud : K) (g : FocGlobals K) :
    motorApplyStrongDrag ud g =
      let (uAlpha, uBeta) := dragVector ud g.gZeroOffset
      motorSetPwm (uAlpha + g.gUdc / 2.0) ((focSqrt3 * uBeta - uAlpha) / 2.0 + g.gUdc / 2.0)
        ((-focSqrt3 * uBeta - uAlpha) / 2.0 + g.gUdc / 2.0) g := rfl

/-- `AngleInitZeroOffset` on an encoder whose `i`-th reading in the loop is `readings i`. -/
def calibrate (g : FocGlobals K) (readings : ℕ → K) : FocGlobals K :=
  let g := motorApplyStrongDrag focStrongdrag g
  let sampleCount := 10
  let sum := ∑ i ∈ Finset.range sampleCount, calculateElectricalAngle (readings i)
  let g := { g with gZeroOffset := sum / sampleCount }
  motorApplyStrongDrag 0 g

end Model

/-- The driver's readings are such readings. -/
theorem angleInitZeroOffset_eq_calibrate {σ : Type} (dev : SpiDevice σ) (encoder : Mt6701 ℝ) (g : FocGlobals ℝ) (s : σ) :
    (angleInitZeroOffset dev encoder g s).1 = calibrate g (sampleMech dev s) := by
  have hsum := (sampleAngles_eq dev s encoder 10).1
  simp only [angleInitZeroOffset, calibrate, hsum]
  rfl

/-- The direction in which the rotor is dragged under this offset. -/
noncomputable def dragAngle (gZeroOffset : ℝ) : ℝ :=
  Complex.arg ⟨(dragVector focStrongdrag gZeroOffset).1, (dragVector focStrongdrag gZeroOffset).2⟩

/-- An ideal rotor with true offset `t`: every reading is where the drag has turned it. -/
def IdealReadings (t : ℝ) (g : FocGlobals ℝ) (readings : ℕ → ℝ) : Prop :=
  ∀ i, ∃ n : ℤ, focPolePairs * readings i = t + dragAngle g.gZeroOffset + n * foc2Pi

/-- One calibration of the ideal rotor finds its offset. -/
def CalibratesOnce (t : ℝ) (g : FocGlobals ℝ) : Prop :=
  ∀ readings, IdealReadings t g readings → NearMod foc2Pi 1e-3 (calibrate g readings).gZeroOffset t

/-- Any number of calibrations of the ideal rotor find its offset, all of them the same. -/
structure CalibratesForGood (t : ℝ) (g : FocGlobals ℝ) : Prop where
  near : ∀ first rest, Along calibrate (IdealReadings t) g (first :: rest) →
    NearMod foc2Pi 1e-3 (run calibrate g (first :: rest)).gZeroOffset t
  unchanged : ∀ first rest, Along calibrate (IdealReadings t) g (first :: rest) →
    (run calibrate g (first :: rest)).gZeroOffset = (calibrate g first).gZeroOffset

section Drag

theorem dragVector_eq (off : ℝ) :
    dragVector focStrongdrag off =
      (fastCos (angleGetCorrectedElec off 0), fastSin (angleGetCorrectedElec off 0)) := by
  ext <;> norm_num [dragVector, focStrongdrag]

theorem abs_dragAngle_le (off : ℝ) : |dragAngle off| ≤ Real.pi := Complex.abs_arg_le_pi _

/-- The drag points at the corrected angle of zero. -/
theorem dragAngle_eq (off : ℝ) : dragAngle off = fastDirection (angleGetCorrectedElec off 0) := by
  rw [dragAngle, dragVector_eq, fastDirection]

theorem corrected_mem (off m : ℝ) : 0 ≤ angleGetCorrectedElec off m ∧ angleGetCorrectedElec off m < 6.28318 := by
  have hhigh := angleGetCorrectedElec_le off m
  norm_num [foc2Pi, focEpsilon] at hhigh
  exact ⟨angleGetCorrectedElec_nonneg off m, by linarith⟩

/-- **The drag undoes the old offset**: it points at its negative. -/
theorem dragAngle_near (off : ℝ) : NearMod foc2Pi 2e-5 (dragAngle off) (-off) := by
  obtain ⟨hlow, hhigh⟩ := corrected_mem off 0
  obtain ⟨k, hk⟩ := fastDirection_near (abs_le.mpr ⟨by linarith, by linarith⟩ : |angleGetCorrectedElec off 0| ≤ 7)
  rw [← dragAngle_eq] at hk
  obtain ⟨n, hn⟩ := angleGetCorrectedElec_congruent off 0
  obtain ⟨hd1, hd2⟩ := abs_le.mp (abs_dragAngle_le off)
  obtain ⟨hk1, hk2⟩ := abs_le.mp hk
  obtain ⟨hn1, hn2⟩ := abs_lt.mp hn
  have hpi1 := Real.pi_gt_d6
  have hpi2 := Real.pi_lt_d6
  have hbelow : k < 1 := by
    apply lt_of_periods_lt Real.two_pi_pos
    push_cast
    linarith
  have habove : -2 < k := by
    apply lt_of_periods_lt Real.two_pi_pos
    push_cast
    linarith
  refine ⟨n + k, ?_⟩
  -- the whole turn taken off is one of the circle, not of the rounded constant
  obtain rfl | rfl : k = 0 ∨ k = -1 := by omega
  · push_cast at *
    norm_num [foc2Pi, focEpsilon] at hn1 hn2 ⊢
    exact abs_le.mpr ⟨by linarith, by linarith⟩
  · push_cast at *
    norm_num [foc2Pi, focEpsilon] at hn1 hn2 ⊢
    exact abs_le.mpr ⟨by linarith, by linarith⟩

theorem dragAngle_normalize (x : ℝ) : dragAngle (normalizeAngle x) = dragAngle x := by
  obtain ⟨n, hn⟩ := normalizeAngle_eq_sub x
  have hcorrected := angleGetCorrectedElec_add_turns (normalizeAngle x) (0 : ℝ) n 0
  rw [show normalizeAngle x + n * foc2Pi = x by rw [hn]; ring, Int.cast_zero, zero_mul, add_zero] at hcorrected
  rw [dragAngle_eq, dragAngle_eq, hcorrected]

theorem dragAngle_small_iff (off : ℝ) :
    |dragAngle off| ≤ 1e-3 ↔
      |fastSin (angleGetCorrectedElec off 0)| ≤ Real.tan 1e-3 * fastCos (angleGetCorrectedElec off 0) := by
  rw [dragAngle_eq]
  exact abs_arg_le_iff (by norm_num) (by linarith [Real.pi_gt_three])

/-- Near the alpha axis the drag tells the corrected angle. -/
theorem dragAngle_eq_iff {off off' : ℝ} (hsmall : |dragAngle off| ≤ 1e-3) :
    dragAngle off' = dragAngle off ↔ angleGetCorrectedElec off' 0 = angleGetCorrectedElec off 0 := by
  constructor
  · intro hsame
    rw [dragAngle_eq, dragAngle_eq] at hsame
    rw [dragAngle_eq] at hsmall
    exact (fastDirection_inj (corrected_mem off 0) (corrected_mem off' 0) hsmall hsame.symm).symm
  · intro hsame
    rw [dragAngle_eq, dragAngle_eq, hsame]

theorem corrected_zero : angleGetCorrectedElec (0 : ℝ) 0 = 0 := by
  have hzero : normalizeAngle (0 : ℝ) = 0 := normalizeAngle_of_mem le_rfl foc2Pi_pos
  simp [angleGetCorrectedElec, calculateElectricalAngle, hzero]

theorem dragAngle_zero : dragAngle 0 = 0 := by
  rw [dragAngle_eq, corrected_zero, fastDirection, Complex.arg_eq_zero_iff]
  simp [fastCos, fastSin, foldHalfTurns_of_small le_rfl zero_le_one]

end Drag

section Rotor

variable {t : ℝ} {g : FocGlobals ℝ}

theorem exists_idealReadings (t : ℝ) (g : FocGlobals ℝ) : ∃ readings, IdealReadings t g readings := by
  refine ⟨fun _ => (t + dragAngle g.gZeroOffset) / focPolePairs, fun _ => ⟨0, ?_⟩⟩
  rw [mul_div_cancel₀ _ (by norm_num [focPolePairs])]
  simp

/-- **One calibration.** All ten readings have one electrical angle, and it becomes the offset. -/
theorem calibrate_ideal {readings : ℕ → ℝ} (h : IdealReadings t g readings) :
    (calibrate g readings).gZeroOffset = normalizeAngle (t + dragAngle g.gZeroOffset) := by
  have helec : ∀ i, calculateElectricalAngle (readings i) = normalizeAngle (t + dragAngle g.gZeroOffset) := by
    intro i
    obtain ⟨n, hn⟩ := h i
    rw [calculateElectricalAngle, mul_comm]
    exact normalizeAngle_congr n hn
  have hoffset : (calibrate g readings).gZeroOffset =
      (∑ i ∈ Finset.range 10, calculateElectricalAngle (readings i)) / (10 : ℕ) := rfl
  rw [hoffset, Finset.sum_congr rfl fun i _ => helec i, Finset.sum_const, Finset.card_range, nsmul_eq_mul]
  exact mul_div_cancel_left₀ _ (by norm_num)

/-- The offset is right exactly when the drag was along the alpha axis, to the tolerance. -/
theorem near_iff {d : ℝ} (hd : |d| ≤ Real.pi) : NearMod foc2Pi 1e-3 (normalizeAngle (t + d)) t ↔ |d| ≤ 1e-3 := by
  obtain ⟨n, hn⟩ := normalizeAngle_eq_sub (t + d)
  rw [hn]
  constructor
  · rintro ⟨m, hm⟩
    rw [show t + d - n * foc2Pi - t - m * foc2Pi = d - ((n + m : ℤ) : ℝ) * foc2Pi by push_cast; ring] at hm
    have hzero : n + m = 0 := by
      apply eq_of_periods_near (foc2Pi_pos (K := ℝ))
      obtain ⟨hm1, hm2⟩ := abs_le.mp hm
      obtain ⟨hd1, hd2⟩ := abs_le.mp hd
      have hpi := Real.pi_lt_d6
      have hturn : (foc2Pi : ℝ) = 6.28318 := rfl
      rw [Int.cast_zero, sub_zero, abs_lt]
      exact ⟨by linarith, by linarith⟩
    rwa [hzero, Int.cast_zero, zero_mul, sub_zero] at hm
  · intro hsmall
    refine ⟨-n, ?_⟩
    push_cast
    rwa [show t + d - n * foc2Pi - t - -n * foc2Pi = d by ring]

/-- Once the offset gives the drag it was found with, it stays. -/
theorem run_calibrate_fixed {off : ℝ} (hoff : off = normalizeAngle (t + dragAngle off)) (hg : g.gZeroOffset = off)
    (rest : List (ℕ → ℝ)) (hideal : Along calibrate (IdealReadings t) g rest) :
    (run calibrate g rest).gZeroOffset = off := by
  induction rest generalizing g with
  | nil => exact hg
  | cons readings rest ih =>
      refine ih ?_ hideal.2
      rw [calibrate_ideal hideal.1, hg, ← hoff]

theorem calibratesOnce_iff (t : ℝ) (g : FocGlobals ℝ) : CalibratesOnce t g ↔ |dragAngle g.gZeroOffset| ≤ 1e-3 := by
  have hbound := abs_dragAngle_le g.gZeroOffset
  constructor
  · intro honce
    obtain ⟨readings, hideal⟩ := exists_idealReadings t g
    have hnear := honce readings hideal
    rwa [calibrate_ideal hideal, near_iff hbound] at hnear
  · intro hsmall readings hideal
    rwa [calibrate_ideal hideal, near_iff hbound]

theorem calibratesForGood_iff (t : ℝ) (g : FocGlobals ℝ) :
    CalibratesForGood t g ↔ |dragAngle g.gZeroOffset| ≤ 1e-3 ∧
      dragAngle (t + dragAngle g.gZeroOffset) = dragAngle g.gZeroOffset := by
  constructor
  · intro hgood
    have hsmall : |dragAngle g.gZeroOffset| ≤ 1e-3 :=
      (calibratesOnce_iff t g).mp fun readings hideal => hgood.near readings [] ⟨hideal, trivial⟩
    refine ⟨hsmall, ?_⟩
    obtain ⟨first, hfirst⟩ := exists_idealReadings t g
    obtain ⟨second, hsecond⟩ := exists_idealReadings t (calibrate g first)
    -- the second calibration finds the same offset, so it drags the same way
    have hsame : normalizeAngle (t + dragAngle (calibrate g first).gZeroOffset) =
        normalizeAngle (t + dragAngle g.gZeroOffset) := by
      rw [← calibrate_ideal hfirst, ← calibrate_ideal hsecond]
      exact hgood.unchanged first [second] ⟨hfirst, hsecond, trivial⟩
    rw [calibrate_ideal hfirst, dragAngle_normalize] at hsame
    obtain ⟨m, hm⟩ := normalizeAngle_eq_sub (t + dragAngle (t + dragAngle g.gZeroOffset))
    obtain ⟨n, hn⟩ := normalizeAngle_eq_sub (t + dragAngle g.gZeroOffset)
    have hmn : m = n := by
      apply eq_of_periods_near (foc2Pi_pos (K := ℝ))
      have hbound := abs_le.mp (abs_dragAngle_le (t + dragAngle g.gZeroOffset))
      obtain ⟨hs1, hs2⟩ := abs_le.mp hsmall
      have hpi := Real.pi_lt_d6
      have hturn : (foc2Pi : ℝ) = 6.28318 := rfl
      rw [sub_mul, abs_lt]
      constructor <;> linarith [hbound.1, hbound.2]
    rw [hmn] at hm
    linarith
  · rintro ⟨hsmall, hsame⟩
    have hrun : ∀ first rest, Along calibrate (IdealReadings t) g (first :: rest) →
        (run calibrate g (first :: rest)).gZeroOffset = normalizeAngle (t + dragAngle g.gZeroOffset) := by
      rintro first rest ⟨hfirst, hrest⟩
      apply run_calibrate_fixed _ (calibrate_ideal hfirst) rest hrest
      rw [dragAngle_normalize, hsame]
    constructor
    · intro first rest hideal
      rw [hrun first rest hideal, near_iff (abs_dragAngle_le _)]
      exact hsmall
    · intro first rest hideal
      rw [hrun first rest hideal, calibrate_ideal hideal.1]

end Rotor

/-- **Recalibration.** The drag on entry points at the negative of the old offset. One calibration is right
exactly when that is the alpha axis, to the tolerance; all further ones agree exactly when the offset found
corrects zero to the same angle again, which from power-up is so only for a rotor with true offset zero. -/
theorem recalibration_iff (t : ℝ) (g : FocGlobals ℝ) :
    let a := angleGetCorrectedElec g.gZeroOffset 0
    let phi := dragAngle g.gZeroOffset
    NearMod foc2Pi 2e-5 phi (-g.gZeroOffset) ∧ (CalibratesOnce t g ↔ |fastSin a| ≤ Real.tan 1e-3 * fastCos a) ∧
      (CalibratesForGood t g ↔
        |fastSin a| ≤ Real.tan 1e-3 * fastCos a ∧ angleGetCorrectedElec (t + phi) 0 = a) ∧
      (g.gZeroOffset = 0 → (CalibratesForGood t g ↔ angleGetCorrectedElec t 0 = 0)) := by
  intro a phi
  have hsmall : |phi| ≤ 1e-3 ↔ |fastSin a| ≤ Real.tan 1e-3 * fastCos a := dragAngle_small_iff _
  have hgood : CalibratesForGood t g ↔
      |fastSin a| ≤ Real.tan 1e-3 * fastCos a ∧ angleGetCorrectedElec (t + phi) 0 = a := by
    rw [calibratesForGood_iff, ← hsmall]
    exact and_congr_right fun hphi => dragAngle_eq_iff hphi
  refine ⟨dragAngle_near _, (calibratesOnce_iff t g).trans hsmall, hgood, fun hzero => ?_⟩
  have ha : a = 0 := by
    rw [show a = angleGetCorrectedElec g.gZeroOffset 0 from rfl, hzero]
    exact corrected_zero
  have hphi : phi = 0 := by
    rw [show phi = dragAngle g.gZeroOffset from rfl, hzero]
    exact dragAngle_zero
  rw [hgood, ← hsmall, hphi, ha, add_zero]
  norm_num

/-- From power-up a rotor with true offset 3 is calibrated rightly, and the next calibration sets its offset
to nearly zero. -/
theorem second_calibration_undoes_first :
    let g : FocGlobals ℝ := ⟨24, 0, 0, 0, 0, 0, 0, 0, 0⟩
    ∃ first second, Along calibrate (IdealReadings 3) g [first, second] ∧ (calibrate g first).gZeroOffset = 3 ∧
      NearMod foc2Pi 1e-3 (run calibrate g [first, second]).gZeroOffset 0 ∧ ¬CalibratesForGood 3 g := by
  intro g
  obtain ⟨first, hfirst⟩ := exists_idealReadings 3 g
  obtain ⟨second, hsecond⟩ := exists_idealReadings 3 (calibrate g first)
  have hone : (calibrate g first).gZeroOffset = 3 := by
    rw [calibrate_ideal hfirst, show dragAngle g.gZeroOffset = 0 from dragAngle_zero, add_zero]
    exact normalizeAngle_of_mem (by norm_num) (by norm_num [foc2Pi])
  have htwo : NearMod foc2Pi 1e-3 (run calibrate g [first, second]).gZeroOffset 0 := by
    rw [run_cons, run_cons, run_nil, calibrate_ideal hsecond, hone]
    obtain ⟨k, hk⟩ := normalizeAngle_eq_sub (3 + dragAngle 3)
    obtain ⟨n, hn⟩ := dragAngle_near 3
    refine ⟨n - k, ?_⟩
    rw [hk]
    push_cast
    rw [show 3 + dragAngle 3 - k * foc2Pi - 0 - (n - k) * foc2Pi = dragAngle 3 - -3 - n * foc2Pi by ring]
    exact hn.trans (by norm_num)
  refine ⟨first, second, ⟨hfirst, hsecond, trivial⟩, hone, htwo, fun hgood => ?_⟩
  have hsame := hgood.unchanged first [second] ⟨hfirst, hsecond, trivial⟩
  rw [hsame, hone] at htwo
  obtain ⟨n, hn⟩ := htwo
  obtain ⟨hn1, hn2⟩ := abs_le.mp hn
  have hturn : (foc2Pi : ℝ) = 6.28318 := rfl
  have hn0 : n = 0 := by
    apply eq_of_periods_near (foc2Pi_pos (K := ℝ))
    rw [Int.cast_zero, sub_zero, abs_lt]
    exact ⟨by linarith, by linarith⟩
  rw [hn0, Int.cast_zero] at hn2
  linarith

end FocFirmware
