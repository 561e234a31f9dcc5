import FocFirmware.AngleElectrical
import FocFirmware.PwmOutput
import FocFirmware.SineFast
import Mathlib.Tactic.LinearCombination

/-! The zero-angle calibration of `FOC.c`. The plain mean of ten normalised angles is the mean on the circle
as long as no two of them lie on either side of the cut between one turn and zero. -/

namespace FocFirmware

open Remainder

section Model

variable {K : Type*} [Field K] [LinearOrder K] [FloorRing K]

def motorApplyStrongDrag (ud : K) (g : FocGlobals K) : FocGlobals K :=
  let uq : K := 0
  let angleEl := angleGetCorrectedElec g.gZeroOffset 0
  let uAlpha := -uq * fastSin angleEl + ud * fastCos angleEl
  let uBeta := uq * fastCos angleEl + ud * fastSin angleEl
  let ua := uAlpha + g.gUdc / 2.0
  let ub := (focSqrt3 * uBeta - uAlpha) / 2.0 + g.gUdc / 2.0
  let uc := (-focSqrt3 * uBeta - uAlpha) / 2.0 + g.gUdc / 2.0
  motorSetPwm ua ub uc g

variable {σ : Type} (dev : SpiDevice σ)

/-- The sampling loop after `n` passes: the sum of the electrical angles. -/
def sampleAngles (encoder : Mt6701 K) (s : σ) : ℕ → K × Mt6701 K × σ
  | 0 => (0, encoder, s)
  | n + 1 =>
      let (sum, encoder, s) := sampleAngles encoder s n
      let (mechanicalAngle, encoder, s) := mt6701GetAngle dev encoder s
      (sum + calculateElectricalAngle mechanicalAngle, encoder, s)

/-- `AngleInitZeroOffset`; the reading after the loop is for the console only. -/
def angleInitZeroOffset (encoder : Mt6701 K) (g : FocGlobals K) (s : σ) : FocGlobals K × Mt6701 K × σ :=
  let g := motorApplyStrongDrag focStrongdrag g
  let sampleCount := 10
  let (sum, encoder, s) := sampleAngles dev encoder s sampleCount
  let (_, encoder, s) := mt6701GetAngle dev encoder s
  let g := { g with gZeroOffset := sum / sampleCount }
  (motorApplyStrongDrag 0 g, encoder, s)

/-- The mechanical angle of the `i`-th reading of the loop. -/
def sampleMech (s : σ) (i : ℕ) : K :=
  let bytes := dev.frameBytes (dev.afterFrames s i)
  mt6701Angle bytes.1 bytes.2.1 bytes.2.2

def sampleElec (s : σ) (i : ℕ) : K := calculateElectricalAngle (sampleMech dev s i)

end Model

section Readings

variable {σ : Type} (dev : SpiDevice σ) (s : σ)

/-- The ten angles lie within `d` of `c` on the circle. -/
def ReadingsWithin (c d : ℝ) : Prop := ∀ i < 10, NearMod foc2Pi d (sampleElec dev s i) c

/-- The offset is within `d` of `c`, and each reading is corrected to an angle near zero. -/
structure CalibrationHolds (c d off : ℝ) : Prop where
  offset_near : NearMod foc2Pi d off c
  corrected_near : ∀ i < 10, NearMod foc2Pi (2 * d + focEpsilon) (angleGetCorrectedElec off (sampleMech dev s i)) 0

/-- No two of the readings lie on either side of the cut. -/
def ReadingsOneSide : Prop := ∀ i < 10, ∀ j < 10, |(sampleElec dev s i - sampleElec dev s j : ℝ)| < focPi

/-- The arc around `c` holds the cut and the last angle before it, one step of the encoder below. -/
def ArcCrossesCut (c d : ℝ) : Prop := ∃ n : ℤ, c - d ≤ n * foc2Pi - foc2Pi / 16384 ∧ n * foc2Pi ≤ c + d

theorem sampleAngles_eq (encoder : Mt6701 ℝ) (n : ℕ) :
    (sampleAngles dev encoder s n).1 = ∑ i ∈ Finset.range n, sampleElec dev s i ∧
      (sampleAngles dev encoder s n).2.2 = dev.afterFrames s n := by
  induction n with
  | zero => exact ⟨rfl, rfl⟩
  | succ n ih =>
      obtain ⟨hsum, hstate⟩ := ih
      unfold sampleAngles
      simp only [mt6701GetAngle_eq, hsum, hstate, Finset.sum_range_succ]
      exact ⟨rfl, rfl⟩

theorem zeroOffset_eq_mean (encoder : Mt6701 ℝ) (g : FocGlobals ℝ) :
    (angleInitZeroOffset dev encoder g s).1.gZeroOffset = (∑ i ∈ Finset.range 10, sampleElec dev s i) / 10 := by
  rw [← (sampleAngles_eq dev s encoder 10).1]
  rfl

/-- The electrical angle of a code is that of seven times the code, modulo one turn. -/
theorem calculateElectricalAngle_code (r : ℕ) :
    calculateElectricalAngle ((r : ℝ) * foc2Pi / 16384) = ((7 * r % 16384 : ℕ) : ℝ) * (foc2Pi / 16384) := by
  have hstep : (0 : ℝ) < foc2Pi / 16384 := div_pos foc2Pi_pos (by norm_num)
  have hlt : ((7 * r % 16384 : ℕ) : ℝ) < 16384 := by exact_mod_cast Nat.mod_lt _ (by norm_num)
  have hsplit : (7 * r : ℝ) = 16384 * ((7 * r / 16384 : ℕ) : ℝ) + ((7 * r % 16384 : ℕ) : ℝ) := by
    exact_mod_cast (Nat.div_add_mod (7 * r) 16384).symm
  have hturns : (r : ℝ) * foc2Pi / 16384 * focPolePairs =
      ((7 * r % 16384 : ℕ) : ℝ) * (foc2Pi / 16384) + ((7 * r / 16384 : ℕ) : ℤ) * foc2Pi := by
    rw [focPolePairs, Int.cast_natCast]
    linear_combination foc2Pi / 16384 * hsplit
  unfold calculateElectricalAngle
  rw [normalizeAngle_congr _ hturns]
  apply normalizeAngle_of_mem
  · exact mul_nonneg (Nat.cast_nonneg _) hstep.le
  · calc ((7 * r % 16384 : ℕ) : ℝ) * (foc2Pi / 16384) < 16384 * (foc2Pi / 16384) := mul_lt_mul_of_pos_right hlt hstep
      _ = foc2Pi := by ring

/-- A reading lies between zero and one encoder step below one turn. -/
theorem sampleElec_mem (i : ℕ) :
    0 ≤ (sampleElec dev s i : ℝ) ∧ (sampleElec dev s i : ℝ) ≤ foc2Pi - foc2Pi / 16384 := by
  have hstep : (0 : ℝ) < foc2Pi / 16384 := div_pos foc2Pi_pos (by norm_num)
  rw [sampleElec, sampleMech, mt6701Angle_eq, calculateElectricalAngle_code]
  generalize hk : 7 * mt6701RawData _ _ _ % 16384 = k
  have hle : (k : ℝ) ≤ 16383 := by
    have hlt : k < 16384 := hk ▸ Nat.mod_lt _ (by norm_num)
    exact_mod_cast Nat.le_of_lt_succ hlt
  refine ⟨mul_nonneg (Nat.cast_nonneg _) hstep.le, ?_⟩
  have hscaled := mul_le_mul_of_nonneg_right hle hstep.le
  linarith

theorem two_focPi : 2 * focPi = (foc2Pi : ℝ) := by norm_num [focPi, foc2Pi]

/-- On one side of the cut, all readings are near one and the same turn of `c`. -/
theorem common_turn {c d : ℝ} (hd : d < focPi / 2) (hwithin : ReadingsWithin dev s c d) (hside : ReadingsOneSide dev s) :
    ∃ n : ℤ, ∀ i < 10, |sampleElec dev s i - (c + n * foc2Pi)| ≤ d := by
  obtain ⟨n, hn⟩ := hwithin 0 (by norm_num)
  refine ⟨n, fun i hi => ?_⟩
  obtain ⟨m, hm⟩ := hwithin i hi
  have hsame : m = n := by
    apply eq_of_periods_near (foc2Pi_pos (K := ℝ))
    obtain ⟨hn1, hn2⟩ := abs_le.mp hn
    obtain ⟨hm1, hm2⟩ := abs_le.mp hm
    obtain ⟨hs1, hs2⟩ := abs_lt.mp (hside i hi 0 (by norm_num))
    have hturn := two_focPi
    rw [sub_mul, abs_lt]
    exact ⟨by linarith, by linarith⟩
  rw [hsame] at hm
  rwa [← sub_sub]

/-- The corrected angle is the electrical angle less the offset, up to turns and the snap to zero. -/
theorem corrected_near (off m : ℝ) :
    NearMod foc2Pi focEpsilon (angleGetCorrectedElec off m) (calculateElectricalAngle m - off) := by
  obtain ⟨n, hn⟩ := angleGetCorrectedElec_congruent off m
  obtain ⟨k, hk⟩ := normalizeAngle_eq_sub (m * focPolePairs)
  refine ⟨n + k, le_of_eq_of_le (congrArg _ ?_) hn.le⟩
  rw [calculateElectricalAngle, hk]
  push_cast
  ring

/-- The readings on one side of the cut give the mean on the circle. -/
theorem calibrationHolds_of_oneSide {c d : ℝ} (hd : d < focPi / 2) (hwithin : ReadingsWithin dev s c d)
    (hside : ReadingsOneSide dev s) : CalibrationHolds dev s c d ((∑ i ∈ Finset.range 10, sampleElec dev s i) / 10) := by
  obtain ⟨n, hn⟩ := common_turn dev s hd hwithin hside
  have hmean := abs_mean_sub_le (by norm_num) hn
  rw [Nat.cast_ofNat] at hmean
  generalize (∑ i ∈ Finset.range 10, (sampleElec dev s i : ℝ)) / 10 = off at *
  refine ⟨⟨n, by rwa [sub_sub]⟩, fun i hi => ?_⟩
  have hnear : NearMod foc2Pi (2 * d) (sampleElec dev s i - off) 0 := by
    apply NearMod.of_abs_sub_le
    obtain ⟨hm1, hm2⟩ := abs_le.mp hmean
    obtain ⟨hi1, hi2⟩ := abs_le.mp (hn i hi)
    rw [sub_zero, abs_le]
    exact ⟨by linarith, by linarith⟩
  rw [add_comm]
  exact (corrected_near off (sampleMech dev s i)).trans hnear

/-- Readings on either side of the cut put the cut, and the angle before it, inside their arc. -/
theorem readingsOneSide_of_not_crosses {c d : ℝ} (hd : d < focPi / 2) (hwithin : ReadingsWithin dev s c d)
    (hcut : ¬ArcCrossesCut c d) : ReadingsOneSide dev s := by
  have hbelow : ∀ i < 10, ∀ j < 10, (sampleElec dev s j - sampleElec dev s i : ℝ) < focPi := by
    intro i hi j hj
    by_contra hfar
    obtain ⟨m, hm⟩ := hwithin i hi
    obtain ⟨n, hn⟩ := hwithin j hj
    obtain ⟨hm1, hm2⟩ := abs_le.mp hm
    obtain ⟨hn1, hn2⟩ := abs_le.mp hn
    have hlow := (sampleElec_mem dev s i).1
    have hhigh := (sampleElec_mem dev s j).2
    have hturn := two_focPi
    have hpos : (0 : ℝ) < foc2Pi := foc2Pi_pos
    -- the higher reading belongs to a later turn
    have hmn : m < n := lt_of_periods_lt hpos (by linarith)
    have hlater : ((m : ℝ) + 1) * foc2Pi ≤ n * foc2Pi := by
      apply mul_le_mul_of_nonneg_right _ hpos.le
      exact_mod_cast hmn
    refine hcut ⟨-m, ?_, ?_⟩ <;> push_cast <;> linarith
  intro i hi j hj
  exact abs_lt.mpr ⟨by linarith [hbelow i hi j hj], hbelow j hj i hi⟩

/-- Whole numbers at most one apart whose sum is a multiple of their number are equal. -/
theorem eq_of_sum_eq_mul {N : ℕ} {n : ℕ → ℤ} {m : ℤ} (hnear : ∀ i < N, ∀ j < N, n i ≤ n j + 1)
    (hsum : ∑ i ∈ Finset.range N, n i = N * m) {i j : ℕ} (hi : i < N) (hj : j < N) : n j ≤ n i := by
  by_contra hlt
  have hmin : ∀ k < N, n i ≤ n k ∧ n k ≤ n i + 1 := fun k hk =>
    ⟨by have := hnear j hj k hk; omega, hnear k hk i hi⟩
  have hshift : ∑ k ∈ Finset.range N, (n k - n i) = N * (m - n i) := by
    rw [Finset.sum_sub_distrib, hsum, Finset.sum_const, Finset.card_range, nsmul_eq_mul]
    ring
  -- one of the differences is 1, and one is 0
  have hlow : 1 ≤ ∑ k ∈ Finset.range N, (n k - n i) := by
    have hone : 1 ≤ n j - n i := by omega
    refine hone.trans (Finset.single_le_sum (f := fun k => n k - n i) (fun k hk => ?_) (Finset.mem_range.mpr hj))
    have := (hmin k (Finset.mem_range.mp hk)).1
    omega
  have hhigh : ∑ k ∈ Finset.range N, (n k - n i) < ∑ _k ∈ Finset.range N, 1 := by
    refine Finset.sum_lt_sum (fun k hk => ?_) ⟨i, Finset.mem_range.mpr hi, by omega⟩
    have := (hmin k (Finset.mem_range.mp hk)).2
    omega
  rw [Finset.sum_const, Finset.card_range, nsmul_eq_mul, mul_one] at hhigh
  rw [hshift] at hlow hhigh
  have hpos : (0 : ℤ) < N := by omega
  have hbelow : m - n i < 1 := lt_of_mul_lt_mul_left (by omega) hpos.le
  have habove : 0 < m - n i := lt_of_mul_lt_mul_left (by omega : (N : ℤ) * 0 < N * (m - n i)) hpos.le
  omega

/-- With a spread under a twentieth of a turn, readings on either side of the cut are never averaged
rightly: each of the later turn moves the mean by a tenth of a turn. -/
theorem oneSide_of_mean_near {c d : ℝ} (hd : d < foc2Pi / 20) (hwithin : ReadingsWithin dev s c d)
    (hmean : NearMod foc2Pi d ((∑ i ∈ Finset.range 10, sampleElec dev s i) / 10) c) : ReadingsOneSide dev s := by
  have hturns : ∀ i < 10, ∃ n : ℤ, |sampleElec dev s i - c - n * foc2Pi| ≤ d := hwithin
  choose! n hn using hturns
  obtain ⟨m, hm⟩ := hmean
  have hpos : (0 : ℝ) < foc2Pi := foc2Pi_pos
  have hstep : (0 : ℝ) < foc2Pi / 16384 := div_pos hpos (by norm_num)
  have hnear : ∀ i < 10, ∀ j < 10, n i ≤ n j + 1 := by
    intro i hi j hj
    have hi' := abs_le.mp (hn i hi)
    have hj' := abs_le.mp (hn j hj)
    have hgap : n i < n j + 2 := by
      apply lt_of_periods_lt hpos
      push_cast
      linarith [(sampleElec_mem dev s i).2, (sampleElec_mem dev s j).1]
    omega
  have hsum : ∑ i ∈ Finset.range 10, n i = (10 : ℕ) * m := by
    have hshifted : ∀ i < 10, |(sampleElec dev s i - n i * foc2Pi) - c| ≤ d := by
      intro i hi
      rw [sub_right_comm]
      exact hn i hi
    have htotal := abs_mean_sub_le (by norm_num) hshifted
    rw [Finset.sum_sub_distrib, ← Finset.sum_mul, ← Int.cast_sum, Nat.cast_ofNat] at htotal
    generalize ∑ i ∈ Finset.range 10, n i = total at *
    generalize ∑ i ∈ Finset.range 10, (sampleElec dev s i : ℝ) = elec at *
    apply eq_of_periods_near hpos
    obtain ⟨hm1, hm2⟩ := abs_le.mp hm
    obtain ⟨ht1, ht2⟩ := abs_le.mp htotal
    push_cast
    rw [abs_lt]
    exact ⟨by linarith, by linarith⟩
  intro i hi j hj
  have hsame : n i = n j := le_antisymm (eq_of_sum_eq_mul hnear hsum hj hi) (eq_of_sum_eq_mul hnear hsum hi hj)
  have hi' := abs_le.mp (hn i hi)
  have hj' := abs_le.mp (hn j hj)
  rw [hsame] at hi'
  have hturn := two_focPi
  rw [abs_lt]
  exact ⟨by linarith, by linarith⟩

end Readings

section Straddle

/-- An encoder that is always ready and sends the bytes of a list. -/
def byteListDevice : SpiDevice (List UInt8) where
  flagGet _ s := (true, s)
  dataTransmit _ s := s
  dataReceive s := ((s.headD 0).toUInt16, s.tail)
  csLow s := s
  csHigh s := s

/-- Five frames with code 0, then five with code 4681, which is one step below a whole electrical turn. -/
def straddlingBytes : List UInt8 := List.replicate 15 0 ++ (List.replicate 5 [0x49, 0x24, 0x00]).flatten

theorem straddling_code : ∀ i < 10,
    let bytes := byteListDevice.frameBytes (byteListDevice.afterFrames straddlingBytes i)
    mt6701RawData bytes.1 bytes.2.1 bytes.2.2 = if i < 5 then 0 else 4681 := by
  decide

theorem straddling_elec {i : ℕ} (hi : i < 10) :
    (sampleElec byteListDevice straddlingBytes i : ℝ) = if i < 5 then 0 else foc2Pi - foc2Pi / 16384 := by
  rw [sampleElec, sampleMech, mt6701Angle_eq, calculateElectricalAngle_code, straddling_code i hi]
  split_ifs
  · norm_num
  · norm_num
    ring

theorem straddling_sum :
    (∑ i ∈ Finset.range 10, sampleElec byteListDevice straddlingBytes i : ℝ) = 5 * (foc2Pi - foc2Pi / 16384) := by
  rw [Finset.sum_congr rfl fun i hi => straddling_elec (Finset.mem_range.mp hi)]
  norm_num [Finset.sum_range_succ]
  ring

/-- An arc that crosses the cut holds these readings. -/
theorem straddling_within {c d : ℝ} (hcut : ArcCrossesCut c d) :
    ReadingsWithin byteListDevice straddlingBytes c d := by
  obtain ⟨n, hlow, hhigh⟩ := hcut
  have hstep : (0 : ℝ) < foc2Pi / 16384 := div_pos foc2Pi_pos (by norm_num)
  intro i hi
  rw [straddling_elec hi]
  split_ifs
  · refine ⟨-n, abs_le.mpr ⟨?_, ?_⟩⟩ <;> push_cast <;> linarith
  · refine ⟨1 - n, abs_le.mpr ⟨?_, ?_⟩⟩ <;> push_cast <;> linarith

/-- Their plain mean is half a turn away. -/
theorem straddling_mean_far {c d : ℝ} (hd : d < focPi / 2) (hcut : ArcCrossesCut c d) :
    ¬NearMod foc2Pi d (5 * (foc2Pi - foc2Pi / 16384) / 10) c := by
  obtain ⟨n, hlow, hhigh⟩ := hcut
  rintro ⟨m, hm⟩
  obtain ⟨hm1, hm2⟩ := abs_le.mp hm
  have hturn := two_focPi
  have hpos : (0 : ℝ) < foc2Pi := foc2Pi_pos
  have hlow' : 0 < m + n := by
    apply lt_of_periods_lt hpos
    push_cast
    linarith
  have hhigh' : m + n < 1 := by
    apply lt_of_periods_lt hpos
    push_cast
    linarith
  omega

end Straddle

/-- Every calibration with readings within `d` of `c` on one side of the cut is right. -/
def OneSideCalibrated (c d : ℝ) : Prop :=
  ∀ (σ : Type) (dev : SpiDevice σ) (encoder : Mt6701 ℝ) (g : FocGlobals ℝ) (s : σ),
    ReadingsWithin dev s c d → ReadingsOneSide dev s →
      CalibrationHolds dev s c d (angleInitZeroOffset dev encoder g s).1.gZeroOffset

/-- Every calibration with readings within `d` of `c` is right. -/
def ArcCalibrated (c d : ℝ) : Prop :=
  ∀ (σ : Type) (dev : SpiDevice σ) (encoder : Mt6701 ℝ) (g : FocGlobals ℝ) (s : σ),
    ReadingsWithin dev s c d → CalibrationHolds dev s c d (angleInitZeroOffset dev encoder g s).1.gZeroOffset

/-- A calibration with readings within `d` of `c` is right exactly when they are on one side of the cut. -/
def OneSideOnlyCalibrated (c d : ℝ) : Prop :=
  ∀ (σ : Type) (dev : SpiDevice σ) (encoder : Mt6701 ℝ) (g : FocGlobals ℝ) (s : σ), ReadingsWithin dev s c d →
    (CalibrationHolds dev s c d (angleInitZeroOffset dev encoder g s).1.gZeroOffset ↔ ReadingsOneSide dev s)

/-- **The calibration.** Readings on one side of the cut are averaged rightly, and when they spread less
than a twentieth of a turn no others are; an arc around the rest position is calibrated rightly, whatever
is read inside it, exactly when it does not cross the cut. -/
theorem calibration_right_off_the_cut (c d : ℝ) (hd : d < focPi / 2) :
    OneSideCalibrated c d ∧ (d < foc2Pi / 20 → OneSideOnlyCalibrated c d) ∧
      (ArcCalibrated c d ↔ ¬ArcCrossesCut c d) := by
  have honeSide : OneSideCalibrated c d := by
    intro σ dev encoder g s hwithin hside
    rw [zeroOffset_eq_mean]
    exact calibrationHolds_of_oneSide dev s hd hwithin hside
  refine ⟨honeSide, ?_, ?_, ?_⟩
  · intro hnarrow σ dev encoder g s hwithin
    refine ⟨fun hholds => ?_, honeSide σ dev encoder g s hwithin⟩
    have hmean := hholds.offset_near
    rw [zeroOffset_eq_mean] at hmean
    exact oneSide_of_mean_near dev s hnarrow hwithin hmean
  · intro hall hcut
    have hfail := (hall _ byteListDevice ⟨0⟩ ⟨24, 0, 0, 0, 0, 0, 0, 0, 0⟩ straddlingBytes (straddling_within hcut)).offset_near
    rw [zeroOffset_eq_mean, straddling_sum] at hfail
    exact straddling_mean_far hd hcut hfail
  · intro hcut σ dev encoder g s hwithin
    exact honeSide σ dev encoder g s hwithin (readingsOneSide_of_not_crosses dev s hd hwithin hcut)

theorem calibration_right_off_the_cut_at_one :
    OneSideCalibrated 1 (1 / 10) ∧ ((1 / 10 : ℝ) < foc2Pi / 20 → OneSideOnlyCalibrated 1 (1 / 10)) ∧
      (ArcCalibrated 1 (1 / 10) ↔ ¬ArcCrossesCut 1 (1 / 10)) :=
  calibration_right_off_the_cut 1 (1 / 10) (by norm_num [focPi])

/-- Five readings of 0 and five one encoder step below a whole turn: all are within 0.001 of 0, and the
offset comes out half a turn away. -/
theorem calibration_wrong_across_the_cut :
    let g : FocGlobals ℝ := ⟨24, 0, 0, 0, 0, 0, 0, 0, 0⟩
    let off := (angleInitZeroOffset byteListDevice ⟨0⟩ g straddlingBytes).1.gZeroOffset
    ReadingsWithin byteListDevice straddlingBytes 0 1e-3 ∧ ¬NearMod foc2Pi 1e-3 off 0 := by
  intro g off
  have hcut : ArcCrossesCut 0 1e-3 := ⟨0, by norm_num [foc2Pi], by norm_num⟩
  refine ⟨straddling_within hcut, ?_⟩
  rw [show off = 5 * (foc2Pi - foc2Pi / 16384) / 10 by rw [← straddling_sum, ← zeroOffset_eq_mean]]
  exact straddling_mean_far (by norm_num [focPi]) hcut

end FocFirmware
