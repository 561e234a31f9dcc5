import FocFirmware.AngleElectrical
import FocFirmware.FocTransforms
import FocFirmware.PwmOutput
import FocFirmware.SineAccuracy
import Mathlib.Analysis.SpecialFunctions.Sqrt

/-! One control step of `FocContorl`: encoder, angle, inverse Park, inverse Clarke, PWM. The commanded
voltage is constant and a quarter of the supply, so the duties are those of a vector a quarter turn ahead
of the rotor, up to the errors of the sine and of the root of three. -/

namespace FocFirmware

section Model

variable {K : Type*} [Field K] [LinearOrder K] [FloorRing K]

/-- The fields of `FocState` that `FocContorl` writes. -/
structure FocState (K : Type*) where
  mechanicalAngle : K
  correctedAngle : K
  ud : K
  uq : K
  uAlpha : K
  uBeta : K
  ua : K
  ub : K
  uc : K

/-- `FocContorl` from the mechanical angle on. -/
def driveAtAngle (mechanicalAngle : K) (g : FocGlobals K) : FocState K × FocGlobals K :=
  let correctedAngle := angleGetCorrectedElec g.gZeroOffset mechanicalAngle
  let ud : K := 0
  let uq : K := 6
  let (uAlpha, uBeta) := invParkTransform uq ud correctedAngle
  let (ua, ub, uc) := invClarkeTransform g.gUdc uAlpha uBeta
  (⟨mechanicalAngle, correctedAngle, ud, uq, uAlpha, uBeta, ua, ub, uc⟩, motorSetPwm ua ub uc g)

def focContorl {σ : Type} (dev : SpiDevice σ) (encoder : Mt6701 K) (g : FocGlobals K) (s : σ) :
    FocState K × FocGlobals K × Mt6701 K × σ :=
  let (mechanicalAngle, encoder, s) := mt6701GetAngle dev encoder s
  let (pFOC, g) := driveAtAngle mechanicalAngle g
  (pFOC, g, encoder, s)

end Model

section Duties

theorem sqrt_three_near : |1.732 - √3| ≤ 5.1e-5 := by
  have hlow : 1.732 ≤ √3 := Real.le_sqrt_of_sq_le (by norm_num)
  have hhigh : √3 ≤ 1.732051 := Real.sqrt_le_iff.mpr (by norm_num)
  exact abs_le.mpr ⟨by linarith, by linarith⟩

theorem cos_phaseA (th : ℝ) : Real.cos (th + Real.pi / 2 - 0 * (2 * Real.pi / 3)) = -Real.sin th := by
  rw [zero_mul, sub_zero, Real.cos_add_pi_div_two]

theorem cos_phaseB (th : ℝ) :
    Real.cos (th + Real.pi / 2 - 1 * (2 * Real.pi / 3)) = (√3 * Real.cos th + Real.sin th) / 2 := by
  rw [show th + Real.pi / 2 - 1 * (2 * Real.pi / 3) = th - Real.pi / 6 by ring, Real.cos_sub, Real.cos_pi_div_six,
    Real.sin_pi_div_six]
  ring

theorem cos_phaseC (th : ℝ) :
    Real.cos (th + Real.pi / 2 - 2 * (2 * Real.pi / 3)) = (√3 * -Real.cos th + Real.sin th) / 2 := by
  rw [show th + Real.pi / 2 - 2 * (2 * Real.pi / 3) = th + Real.pi / 6 - Real.pi by ring, Real.cos_sub_pi,
    Real.cos_add, Real.cos_pi_div_six, Real.sin_pi_div_six]
  ring

/-- The duty of the second phase, and of the third with the other sign of the cosine. -/
theorem mixed_phase_near {sn cs x y : ℝ} (hsn : |sn - y| ≤ 1e-6) (hcs : |cs - x| ≤ 1e-6) (hx : |x| ≤ 1) :
    |(1.732 * cs + sn) / 8 - (√3 * x + y) / 8| ≤ 2e-5 := by
  have hroot : |(1.732 - √3) * x| ≤ 5.1e-5 * 1 := by
    rw [abs_mul]
    exact mul_le_mul sqrt_three_near hx (abs_nonneg _) (by norm_num)
  obtain ⟨hsn1, hsn2⟩ := abs_le.mp hsn
  obtain ⟨hcs1, hcs2⟩ := abs_le.mp hcs
  obtain ⟨hroot1, hroot2⟩ := abs_le.mp hroot
  exact abs_le.mpr ⟨by linarith, by linarith⟩

/-- What the rest of the step needs of the angle. -/
structure SineKnown (th : ℝ) : Prop where
  sin_near : |fastSin th - Real.sin th| ≤ 1e-6
  cos_near : |fastCos th - Real.cos th| ≤ 1e-6

section Phases

variable {th : ℝ} (h : SineKnown th)

include h

theorem phaseA_near :
    |1 / 2 + -fastSin th / 4 - (1 / 2 + 1 / 4 * Real.cos (th + Real.pi / 2 - 0 * (2 * Real.pi / 3)))| ≤ 2e-5 := by
  obtain ⟨hlow, hhigh⟩ := abs_le.mp h.sin_near
  rw [cos_phaseA]
  exact abs_le.mpr ⟨by linarith, by linarith⟩

theorem phaseB_near :
    |1 / 2 + (1.732 * fastCos th + fastSin th) / 8 -
      (1 / 2 + 1 / 4 * Real.cos (th + Real.pi / 2 - 1 * (2 * Real.pi / 3)))| ≤ 2e-5 := by
  rw [cos_phaseB]
  convert mixed_phase_near h.sin_near h.cos_near (Real.abs_cos_le_one th) using 2
  ring

theorem phaseC_near :
    |1 / 2 + (1.732 * -fastCos th + fastSin th) / 8 -
      (1 / 2 + 1 / 4 * Real.cos (th + Real.pi / 2 - 2 * (2 * Real.pi / 3)))| ≤ 2e-5 := by
  have hcos : |-fastCos th - -Real.cos th| ≤ 1e-6 := by
    rw [neg_sub_neg, abs_sub_comm]
    exact h.cos_near
  have hone : |-Real.cos th| ≤ 1 := (abs_neg _).trans_le (Real.abs_cos_le_one th)
  rw [cos_phaseC]
  convert mixed_phase_near h.sin_near hcos hone using 2
  ring

end Phases

theorem sineKnown_corrected (off m : ℝ) : SineKnown (angleGetCorrectedElec off m) := by
  have hlow := angleGetCorrectedElec_nonneg off m
  have hhigh := angleGetCorrectedElec_le off m
  norm_num [foc2Pi, focEpsilon] at hhigh
  have habs : |angleGetCorrectedElec off m| ≤ 7 := abs_le.mpr ⟨by linarith, by linarith⟩
  obtain ⟨hsin, hcos⟩ := near_within_turn habs
  exact ⟨hsin, hcos⟩

/-- The three phase voltages under a 24 V supply, as multiples of the supply. -/
theorem driveAtAngle_voltages (m : ℝ) (g : FocGlobals ℝ) (hUdc : g.gUdc = 24) :
    let pFOC := (driveAtAngle m g).1
    let sn := fastSin pFOC.correctedAngle
    let cs := fastCos pFOC.correctedAngle
    pFOC.ua / g.gUdc = 1 / 2 + -sn / 4 ∧ pFOC.ub / g.gUdc = 1 / 2 + (1.732 * cs + sn) / 8 ∧
      pFOC.uc / g.gUdc = 1 / 2 + (1.732 * -cs + sn) / 8 := by
  simp only [driveAtAngle, invParkTransform, invClarkeTransform, focSqrt3, hUdc]
  refine ⟨by ring, by ring, by ring⟩

/-- A phase voltage whose share of the supply is within a third of one half is inside the supply. -/
theorem inside_of_share {u w gUdc : ℝ} (hUdc : gUdc = 24) (hshare : u / gUdc = 1 / 2 + w) (hw : |w| ≤ 0.35) :
    0 < u ∧ u < gUdc := by
  obtain ⟨hlow, hhigh⟩ := abs_le.mp hw
  have hu : u = 24 * (1 / 2 + w) := by
    rw [← hshare, hUdc]
    ring
  exact ⟨by linarith, by linarith⟩

/-- All three voltages are well inside the supply. -/
theorem driveAtAngle_inside (m : ℝ) (g : FocGlobals ℝ) (hUdc : g.gUdc = 24) :
    let pFOC := (driveAtAngle m g).1
    (0 < pFOC.ua ∧ pFOC.ua < g.gUdc) ∧ (0 < pFOC.ub ∧ pFOC.ub < g.gUdc) ∧ (0 < pFOC.uc ∧ pFOC.uc < g.gUdc) := by
  obtain ⟨hua, hub, huc⟩ := driveAtAngle_voltages m g hUdc
  have hknown := sineKnown_corrected g.gZeroOffset m
  obtain ⟨hs1, hs2⟩ := abs_le.mp hknown.sin_near
  obtain ⟨hc1, hc2⟩ := abs_le.mp hknown.cos_near
  have hsin := abs_le.mp (Real.abs_sin_le_one (angleGetCorrectedElec g.gZeroOffset m))
  have hcos := abs_le.mp (Real.abs_cos_le_one (angleGetCorrectedElec g.gZeroOffset m))
  refine ⟨inside_of_share hUdc hua ?_, inside_of_share hUdc hub ?_, inside_of_share hUdc huc ?_⟩ <;>
    refine abs_le.mpr ⟨?_, ?_⟩ <;> simp only [driveAtAngle] <;> linarith

end Duties

/-- **One control step.** Under a 24 V supply no limit changes its argument, the duties sum to 3/2 and
are those of a vector of a quarter of the supply, a quarter turn ahead of the corrected angle, and the
compare values are their integer parts. -/
theorem control_step_duties {σ : Type} (dev : SpiDevice σ) (encoder : Mt6701 ℝ) (g : FocGlobals ℝ) (s : σ) :
    let g := { g with gUdc := 24 }
    let step := focContorl dev encoder g s
    let pFOC := step.1
    let g' := step.2.1
    let duty := fun k : ℝ =>
      1 / 2 + pFOC.uq / g.gUdc * Real.cos (pFOC.correctedAngle + Real.pi / 2 - k * (2 * Real.pi / 3))
    (PassesLimits g.gUdc pFOC.ua ∧ PassesLimits g.gUdc pFOC.ub ∧ PassesLimits g.gUdc pFOC.uc) ∧
      g'.gPwmA + g'.gPwmB + g'.gPwmC = 3 / 2 ∧
      (|g'.gPwmA - duty 0| ≤ 2e-5 ∧ |g'.gPwmB - duty 1| ≤ 2e-5 ∧ |g'.gPwmC - duty 2| ≤ 2e-5) ∧
      g'.c1dt = ⌊focAllDuty * g'.gPwmA⌋ ∧ g'.c2dt = ⌊focAllDuty * g'.gPwmB⌋ ∧ g'.c3dt = ⌊focAllDuty * g'.gPwmC⌋ := by
  intro g step pFOC g' duty
  have hUdc : g.gUdc = 24 := rfl
  obtain ⟨hua, hub, huc⟩ := driveAtAngle_voltages (mt6701GetAngle dev encoder s).1 g hUdc
  obtain ⟨hina, hinb, hinc⟩ := driveAtAngle_inside (mt6701GetAngle dev encoder s).1 g hUdc
  have hpwm := motorSetPwm_of_mem hina hinb hinc
  have hknown : SineKnown pFOC.correctedAngle := sineKnown_corrected _ _
  have huq : pFOC.uq / g.gUdc = 1 / 4 := by
    rw [hUdc, show pFOC.uq = 6 from rfl]
    norm_num
  have hA : g'.gPwmA = 1 / 2 + -fastSin pFOC.correctedAngle / 4 := (congrArg FocGlobals.gPwmA hpwm).trans hua
  have hB : g'.gPwmB = 1 / 2 + (1.732 * fastCos pFOC.correctedAngle + fastSin pFOC.correctedAngle) / 8 :=
    (congrArg FocGlobals.gPwmB hpwm).trans hub
  have hC : g'.gPwmC = 1 / 2 + (1.732 * -fastCos pFOC.correctedAngle + fastSin pFOC.correctedAngle) / 8 :=
    (congrArg FocGlobals.gPwmC hpwm).trans huc
  refine ⟨⟨passesLimits_of_mem hina.1 hina.2, passesLimits_of_mem hinb.1 hinb.2, passesLimits_of_mem hinc.1 hinc.2⟩,
    ?_, ⟨?_, ?_, ?_⟩, ?_, ?_, ?_⟩
  · rw [hA, hB, hC]
    ring
  · simp only [duty, hA, huq]
    exact phaseA_near hknown
  · simp only [duty, hB, huq]
    exact phaseB_near hknown
  · simp only [duty, hC, huq]
    exact phaseC_near hknown
  · exact (congrArg FocGlobals.c1dt hpwm).trans (congrArg (fun g : FocGlobals ℝ => ⌊focAllDuty * g.gPwmA⌋) hpwm).symm
  · exact (congrArg FocGlobals.c2dt hpwm).trans (congrArg (fun g : FocGlobals ℝ => ⌊focAllDuty * g.gPwmB⌋) hpwm).symm
  · exact (congrArg FocGlobals.c3dt hpwm).trans (congrArg (fun g : FocGlobals ℝ => ⌊focAllDuty * g.gPwmC⌋) hpwm).symm

end FocFirmware
