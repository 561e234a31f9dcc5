import FocFirmware.EncoderDriver

/-! The electrical angle of `FOC.c`. Normalisation is the canonical representative in `[0, 2π)`, so
the corrected angle depends on its two arguments only modulo one turn, up to the window that snaps
an angle just below one turn to zero. -/

namespace FocFirmware

open Remainder

section Model

variable {K : Type*} [Field K] [LinearOrder K] [FloorRing K]

def normalizeAngle (angle : K) : K :=
  let result := fmod angle foc2Pi
  if 0 ≤ result then result else result + foc2Pi

def calculateElectricalAngle (mechAngle : K) : K :=
  let elecAngle := mechAngle * focPolePairs
  normalizeAngle elecAngle

/-- `AngleGetCorrectedElec`, with the global `g_zeroOffset` it reads. -/
def angleGetCorrectedElec (gZeroOffset mechAngle : K) : K :=
  let elecAngle := calculateElectricalAngle mechAngle
  let corrected := elecAngle - gZeroOffset
  let corrected := normalizeAngle corrected
  if |corrected - foc2Pi| < focEpsilon then 0 else corrected

end Model

section Normalize

variable {K : Type*} [Field K] [LinearOrder K] [IsStrictOrderedRing K] [FloorRing K]

theorem normalizeAngle_eq_fract (x : K) : normalizeAngle x = foc2Pi * Int.fract (x / foc2Pi) :=
  fmod_corrected foc2Pi_pos x

theorem normalizeAngle_nonneg (x : K) : 0 ≤ normalizeAngle x := by
  rw [normalizeAngle_eq_fract]
  exact (fract_scaled_mem foc2Pi_pos x).1

theorem normalizeAngle_lt (x : K) : normalizeAngle x < foc2Pi := by
  rw [normalizeAngle_eq_fract]
  exact (fract_scaled_mem foc2Pi_pos x).2

theorem normalizeAngle_eq_sub (x : K) : ∃ n : ℤ, normalizeAngle x = x - n * foc2Pi :=
  ⟨_, (normalizeAngle_eq_fract x).trans (fract_scaled_eq foc2Pi_pos x)⟩

/-- Angles that differ by whole turns have one normal form. -/
theorem normalizeAngle_congr {x y : K} (n : ℤ) (h : x = y + n * foc2Pi) : normalizeAngle x = normalizeAngle y := by
  rw [h, normalizeAngle_eq_fract, normalizeAngle_eq_fract, fract_scaled_add foc2Pi_pos]

theorem normalizeAngle_of_mem {x : K} (hlow : 0 ≤ x) (hhigh : x < foc2Pi) : normalizeAngle x = x := by
  rw [normalizeAngle_eq_fract, fract_scaled_of_mem foc2Pi_pos hlow hhigh]

/-- A whole mechanical turn is a whole number of electrical turns. -/
theorem calculateElectricalAngle_add_turns (m : K) (k : ℤ) :
    calculateElectricalAngle (m + k * foc2Pi) = calculateElectricalAngle m := by
  apply normalizeAngle_congr (7 * k)
  rw [focPolePairs]
  push_cast
  ring

/-- The corrected angle before the snap to zero. -/
theorem corrected_congruent (off m : K) :
    ∃ n : ℤ, normalizeAngle (calculateElectricalAngle m - off) = focPolePairs * m - off - n * foc2Pi := by
  obtain ⟨k, hk⟩ := normalizeAngle_eq_sub (m * focPolePairs)
  obtain ⟨l, hl⟩ := normalizeAngle_eq_sub (calculateElectricalAngle m - off)
  refine ⟨k + l, ?_⟩
  rw [hl, calculateElectricalAngle, hk]
  push_cast
  ring

/-- The snap to zero leaves the angle or moves it by less than the tolerance, up to one turn. -/
theorem angleGetCorrectedElec_cases (off m : K) :
    angleGetCorrectedElec off m = normalizeAngle (calculateElectricalAngle m - off) ∧
        angleGetCorrectedElec off m ≤ foc2Pi - focEpsilon ∨
      angleGetCorrectedElec off m = 0 ∧
        foc2Pi - focEpsilon < normalizeAngle (calculateElectricalAngle m - off) := by
  have hlt := normalizeAngle_lt (calculateElectricalAngle m - off)
  have habs : |normalizeAngle (calculateElectricalAngle m - off) - foc2Pi| =
      foc2Pi - normalizeAngle (calculateElectricalAngle m - off) := by
    rw [abs_of_neg (by linarith)]
    ring
  simp only [angleGetCorrectedElec, habs]
  split_ifs with hsnap
  · exact .inr ⟨rfl, by linarith⟩
  · exact .inl ⟨rfl, by linarith [not_lt.mp hsnap]⟩

theorem angleGetCorrectedElec_nonneg (off m : K) : 0 ≤ angleGetCorrectedElec off m := by
  rcases angleGetCorrectedElec_cases off m with ⟨heq, _⟩ | ⟨heq, _⟩
  · exact heq ▸ normalizeAngle_nonneg _
  · exact heq.ge

theorem angleGetCorrectedElec_le (off m : K) : angleGetCorrectedElec off m ≤ foc2Pi - focEpsilon := by
  rcases angleGetCorrectedElec_cases off m with ⟨_, hle⟩ | ⟨heq, _⟩
  · exact hle
  · rw [heq]
    linarith [focEpsilon_lt_foc2Pi (K := K)]

theorem angleGetCorrectedElec_congruent (off m : K) :
    ∃ n : ℤ, |angleGetCorrectedElec off m - (focPolePairs * m - off) - n * foc2Pi| < focEpsilon := by
  obtain ⟨n, hn⟩ := corrected_congruent off m
  rcases angleGetCorrectedElec_cases off m with ⟨heq, _⟩ | ⟨heq, hwindow⟩
  · refine ⟨-n, ?_⟩
    rw [heq, hn]
    push_cast
    simpa using focEpsilon_pos (K := K)
  · refine ⟨-n - 1, ?_⟩
    have hlt := normalizeAngle_lt (calculateElectricalAngle m - off)
    rw [heq, abs_lt]
    push_cast
    exact ⟨by linarith, by linarith⟩

/-- The offset matters only modulo one turn, and so does the mechanical angle. -/
theorem angleGetCorrectedElec_add_turns (off m : K) (j k : ℤ) :
    angleGetCorrectedElec (off + j * foc2Pi) (m + k * foc2Pi) = angleGetCorrectedElec off m := by
  have hnorm : normalizeAngle (calculateElectricalAngle m - (off + j * foc2Pi)) =
      normalizeAngle (calculateElectricalAngle m - off) := by
    apply normalizeAngle_congr (-j)
    push_cast
    ring
  simp only [angleGetCorrectedElec, calculateElectricalAngle_add_turns, hnorm]

end Normalize

/-- **The angle pipeline.** Whatever three bytes the peripheral delivers, the mechanical angle is
that of the upper 14 bits, and the corrected angle tracks the rotor modulo one electrical turn. -/
theorem angle_pipeline {σ : Type} (dev : SpiDevice σ) (s : σ) (encoder : Mt6701 ℝ) (gZeroOffset : ℝ) :
    let bytes := dev.frameBytes s
    let r : ℕ := frameWord bytes.1 bytes.2.1 bytes.2.2 / 2 ^ 10
    let m := (mt6701GetAngle dev encoder s).1
    let corrected := angleGetCorrectedElec gZeroOffset m
    (r < 2 ^ 14 ∧ m = r * foc2Pi / 16384) ∧
      (∀ b1 b2 b3, frameWord b1 b2 b3 / 2 ^ 10 = r →
        angleGetCorrectedElec gZeroOffset (mt6701Angle b1 b2 b3) = corrected) ∧
      (0 ≤ corrected ∧ corrected ≤ foc2Pi - focEpsilon) ∧
      (∃ n : ℤ, |corrected - (focPolePairs * m - gZeroOffset) - n * foc2Pi| < focEpsilon) ∧
      ∀ j k : ℤ, ∃ n : ℤ,
        |angleGetCorrectedElec (gZeroOffset + j * foc2Pi) (m + k * foc2Pi) - corrected - n * foc2Pi| <
          focEpsilon := by
  intro bytes r m corrected
  have hr : r = mt6701RawData bytes.1 bytes.2.1 bytes.2.2 := (mt6701RawData_eq _ _ _).symm
  have hm : m = r * foc2Pi / 16384 := by
    rw [hr, ← mt6701Angle_eq]
    rfl
  refine ⟨⟨hr ▸ mt6701RawData_lt _ _ _, hm⟩, ?_, ⟨angleGetCorrectedElec_nonneg _ _, angleGetCorrectedElec_le _ _⟩,
    angleGetCorrectedElec_congruent _ _, ?_⟩
  · intro b1 b2 b3 hword
    have hangle : mt6701Angle b1 b2 b3 = m := by
      rw [mt6701Angle_eq, mt6701RawData_eq, hm]
      exact congrArg (fun q : ℕ => (q : ℝ) * foc2Pi / 16384) hword
    rw [hangle]
  · intro j k
    refine ⟨0, ?_⟩
    rw [angleGetCorrectedElec_add_turns, show angleGetCorrectedElec gZeroOffset m - corrected = 0 from sub_self _]
    simpa using focEpsilon_pos (K := ℝ)

end FocFirmware
