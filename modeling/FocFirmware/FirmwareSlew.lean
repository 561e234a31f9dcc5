import FocFirmware.FirmwareOrientation

/-! How far the compare registers move with the encoder. Through both wraps of the angle, the snap to zero, the
polynomials and the truncation, a step of the rotor moves each register by about 3.36 counts a code, wherever in
the turn it is taken and whenever in a run; the same code always gives the same registers. -/

namespace FocFirmware

open Interrupts Remainder Runs ThreePhase

section Model

variable {σ : Type} (dev : SpiDevice σ)

/-- The code of frame `i`. -/
def sampleCode (s : σ) (i : ℕ) : ℕ :=
  let bytes := dev.frameBytes (dev.afterFrames s i)
  mt6701RawData bytes.1 bytes.2.1 bytes.2.2

theorem sampleMech_code (s : σ) (i : ℕ) : (sampleMech dev s i : ℝ) = sampleCode dev s i * foc2Pi / 16384 := mt6701Angle_eq _ _ _

end Model

section Step

/-- Codes near each other on the circle of codes have corrected angles near each other on the circle of angles. -/
theorem corrected_slew (off : ℝ) {r r' k : ℝ} (h : NearMod 16384 k r r') :
    NearMod foc2Pi (0.002685 * k + 2e-6) (angleGetCorrectedElec off (r * foc2Pi / 16384))
      (angleGetCorrectedElec off (r' * foc2Pi / 16384)) := by
  obtain ⟨j, hj⟩ := h
  obtain ⟨n, hn⟩ := angleGetCorrectedElec_congruent off (r * foc2Pi / 16384)
  obtain ⟨n', hn'⟩ := angleGetCorrectedElec_congruent off (r' * foc2Pi / 16384)
  generalize angleGetCorrectedElec off (r * foc2Pi / 16384) = a at hn ⊢
  generalize angleGetCorrectedElec off (r' * foc2Pi / 16384) = a' at hn' ⊢
  obtain ⟨hj1, hj2⟩ := abs_le.mp hj
  obtain ⟨hn1, hn2⟩ := abs_lt.mp hn
  obtain ⟨hn1', hn2'⟩ := abs_lt.mp hn'
  refine ⟨n - n' + 7 * j, ?_⟩
  norm_num [foc2Pi, focPolePairs, focEpsilon] at hn1 hn2 hn1' hn2' ⊢
  exact abs_le.mpr ⟨by linarith, by linarith⟩

theorem abs_floor_sub_floor_le {x y d : ℝ} (h : |x - y| ≤ d) : |(⌊x⌋ : ℝ) - ⌊y⌋| ≤ d + 1 := by
  obtain ⟨hlow, hhigh⟩ := abs_le.mp h
  have hx1 := Int.floor_le x
  have hx2 := Int.lt_floor_add_one x
  have hy1 := Int.floor_le y
  have hy2 := Int.lt_floor_add_one y
  exact abs_le.mpr ⟨by linarith, by linarith⟩

/-- From the duties to the registers, for both steps. -/
theorem compareValues_sub_le {m m' d : ℝ} {g g' : FocGlobals ℝ} (hUdc : g.gUdc = 24) (hUdc' : g'.gUdc = 24) (k : Fin 3)
    (h : |balanced (1 / 2) (1 / 4) (angleGetCorrectedElec g.gZeroOffset m) k -
      balanced (1 / 2) (1 / 4) (angleGetCorrectedElec g'.gZeroOffset m') k| ≤ d) :
    |(compareValues (driveAtAngle m g).2 k : ℝ) - compareValues (driveAtAngle m' g').2 k| ≤ 5000 * d + 1.2 := by
  obtain ⟨hduty, hcompare⟩ := driveAtAngle_duties m hUdc k
  obtain ⟨hduty', hcompare'⟩ := driveAtAngle_duties m' hUdc' k
  obtain ⟨hd1, hd2⟩ := abs_le.mp hduty
  obtain ⟨hd1', hd2'⟩ := abs_le.mp hduty'
  obtain ⟨h1, h2⟩ := abs_le.mp h
  rw [hcompare, hcompare', show 5000 * d + 1.2 = 5000 * d + 0.2 + 1 by ring]
  apply abs_floor_sub_floor_le
  rw [focAllDuty]
  exact abs_le.mpr ⟨by linarith, by linarith⟩

/-- The registers depend on the supply, the offset and the angle only. -/
theorem compareValues_congr (m : ℝ) {g g' : FocGlobals ℝ} (hUdc : g'.gUdc = g.gUdc) (hoffset : g'.gZeroOffset = g.gZeroOffset) :
    compareValues (driveAtAngle m g).2 = compareValues (driveAtAngle m g').2 := by
  simp only [compareValues, driveAtAngle, motorSetPwm, setpwmChannel, hUdc, hoffset]

theorem balanced_mem (th : ℝ) (k : Fin 3) : 1 / 4 ≤ balanced (1 / 2) (1 / 4) th k ∧ balanced (1 / 2) (1 / 4) th k ≤ 3 / 4 := by
  have hlow := Real.neg_one_le_sin (th - axis k)
  have hhigh := Real.sin_le_one (th - axis k)
  rw [balanced]
  exact ⟨by linarith, by linarith⟩

/-- **Two steps of one calibration.** Codes at most `k` apart give registers at most `3.36 k + 1.22` apart. -/
theorem compareValues_slew {r r' k : ℝ} {g g' : FocGlobals ℝ} (hUdc : g.gUdc = 24) (hUdc' : g'.gUdc = 24)
    (hoffset : g'.gZeroOffset = g.gZeroOffset) (hk : NearMod 16384 k r r') (j : Fin 3) :
    |(compareValues (driveAtAngle (r * foc2Pi / 16384) g).2 j : ℝ) -
      compareValues (driveAtAngle (r' * foc2Pi / 16384) g').2 j| ≤ 3.36 * k + 1.22 := by
  have hslew := corrected_slew g.gZeroOffset hk
  obtain ⟨_, hgap⟩ := hk
  have hnonneg : 0 ≤ k := (abs_nonneg _).trans hgap
  have hduties : ∀ d, |balanced (1 / 2) (1 / 4) (angleGetCorrectedElec g.gZeroOffset (r * foc2Pi / 16384)) j -
      balanced (1 / 2) (1 / 4) (angleGetCorrectedElec g.gZeroOffset (r' * foc2Pi / 16384)) j| ≤ d →
      |(compareValues (driveAtAngle (r * foc2Pi / 16384) g).2 j : ℝ) -
        compareValues (driveAtAngle (r' * foc2Pi / 16384) g').2 j| ≤ 5000 * d + 1.2 := by
    intro d hd
    apply compareValues_sub_le hUdc hUdc' j
    rw [hoffset]
    exact hd
  have hcorrected : ∀ m, 0 ≤ angleGetCorrectedElec g.gZeroOffset m ∧ angleGetCorrectedElec g.gZeroOffset m ≤ foc2Pi := by
    intro m
    exact ⟨angleGetCorrectedElec_nonneg _ _, (angleGetCorrectedElec_le _ _).trans (by norm_num [focEpsilon])⟩
  have hmem := hcorrected (r * foc2Pi / 16384)
  have hmem' := hcorrected (r' * foc2Pi / 16384)
  generalize angleGetCorrectedElec g.gZeroOffset (r * foc2Pi / 16384) = a at hslew hduties hmem
  generalize angleGetCorrectedElec g.gZeroOffset (r' * foc2Pi / 16384) = a' at hslew hduties hmem'
  by_cases hnear : k ≤ 2000
  · obtain ⟨n, hn⟩ := turn_near hmem hmem' (by linarith) hslew
    have hsmall := hduties _ (abs_balanced_sub_le n (by norm_num) hn j)
    linarith
  · -- farther than the duties can ever be apart
    obtain ⟨hlow, hhigh⟩ := balanced_mem a j
    obtain ⟨hlow', hhigh'⟩ := balanced_mem a' j
    have hlarge := hduties (1 / 2) (abs_le.mpr ⟨by linarith, by linarith⟩)
    linarith

end Step

section Run

variable {σ : Type} (dev : SpiDevice σ) (floatBits : ℝ → UInt32) (encoder : Mt6701 ℝ) (port : σ) (beyond : ℕ → UInt8)

/-- After a served conversion the compare registers are those of one control step at the last angle read. -/
theorem served_drive (events : List (Event HardwareEvent))
    (hserved : 0 < controlsServed dev floatBits encoder port beyond events) :
    let s := firmwareRun dev floatBits encoder port beyond events
    let angle : ℝ := sampleMech dev port (10 + controlsServed dev floatBits encoder port beyond events)
    s.pwm.encoder.angle = angle ∧ ∃ g : FocGlobals ℝ, g.gUdc = 24 ∧
      g.gZeroOffset = (∑ i ∈ Finset.range 10, sampleElec dev port i) / 10 ∧ s.pwm.globals = (driveAtAngle angle g).2 := by
  intro s angle
  have hpc : s.pc = .superloop := by
    by_contra hne
    exact hserved.ne' ((firmware_ordered dev floatBits encoder port beyond events).unserved hne)
  have hpwm := superloop_controlled dev encoder port floatBits beyond events hpc
  have hangle := (controlled_at dev encoder port (controlsServed dev floatBits encoder port beyond events)).angle
  rw [← hpwm] at hangle
  obtain ⟨m, hm⟩ := Nat.exists_eq_succ_of_ne_zero hserved.ne'
  have hbefore := controlled_at dev encoder port m
  refine ⟨hangle, _, hbefore.udc, hbefore.offset, ?_⟩
  simp only [s, angle]
  rw [hpwm, hm, Nat.succ_eq_add_one, controlled_succ, (serveControl_at dev port hbefore).2, show 10 + (m + 1) = 11 + m by omega]

end Run

/-- **Slew of the drive.** Take any two moments of any two interleavings of one firmware, each after a served
conversion. The last frames read are those of the conversions served, equal codes give equal registers, and codes at
most `k` apart on their circle give registers at most `3.36 k + 1.22` apart. -/
theorem firmware_slew {σ : Type} (dev : SpiDevice σ) (floatBits : ℝ → UInt32) (encoder : Mt6701 ℝ) (port : σ)
    (beyond : ℕ → UInt8) (events events' : List (Event HardwareEvent)) :
    let s := firmwareRun dev floatBits encoder port beyond events
    let s' := firmwareRun dev floatBits encoder port beyond events'
    let n := controlsServed dev floatBits encoder port beyond events
    let n' := controlsServed dev floatBits encoder port beyond events'
    0 < n → 0 < n' →
      s.pwm.encoder.angle = sampleMech dev port (10 + n) ∧ s'.pwm.encoder.angle = sampleMech dev port (10 + n') ∧
      (sampleCode dev port (10 + n) = sampleCode dev port (10 + n') →
        compareValues s.pwm.globals = compareValues s'.pwm.globals) ∧
      ∀ k : ℝ, NearMod 16384 k (sampleCode dev port (10 + n)) (sampleCode dev port (10 + n')) →
        ∀ j, |(compareValues s.pwm.globals j : ℝ) - compareValues s'.pwm.globals j| ≤ 3.36 * k + 1.22 := by
  intro s s' n n' hpos hpos'
  obtain ⟨hangle, g, hUdc, hoffset, hglobals⟩ := served_drive dev floatBits encoder port beyond events hpos
  obtain ⟨hangle', g', hUdc', hoffset', hglobals'⟩ := served_drive dev floatBits encoder port beyond events' hpos'
  refine ⟨hangle, hangle', ?_⟩
  rw [hglobals, hglobals', sampleMech_code, sampleMech_code]
  refine ⟨fun hcode => ?_, fun k hk => compareValues_slew hUdc hUdc' (hoffset'.trans hoffset.symm) hk⟩
  rw [hcode]
  exact compareValues_congr _ (hUdc'.trans hUdc.symm) (hoffset'.trans hoffset.symm)

def turningBytes : List UInt8 := List.replicate 36 0 ++ [0x00, 0x04, 0x00]

/-- A rotor that moves by one code between two conversions. -/
theorem firmware_slew_one_code :
    let runTo := fun n => firmwareRun byteListDevice (fun _ => 0) ⟨(0 : ℝ)⟩ turningBytes (fun _ => 0) (servedConversions n)
    let before := (runTo 1).pwm.globals
    let after := (runTo 2).pwm.globals
    |(before.c1dt : ℝ) - after.c1dt| ≤ 4.58 ∧ |(before.c2dt : ℝ) - after.c2dt| ≤ 4.58 ∧
      |(before.c3dt : ℝ) - after.c3dt| ≤ 4.58 := by
  intro runTo before after
  have hserved : controlsServed byteListDevice (fun _ => 0) ⟨(0 : ℝ)⟩ turningBytes (fun _ => 0) (servedConversions 1) = 1 := rfl
  have hserved' : controlsServed byteListDevice (fun _ => 0) ⟨(0 : ℝ)⟩ turningBytes (fun _ => 0) (servedConversions 2) = 2 := rfl
  have hcode : sampleCode byteListDevice turningBytes 11 = 0 := by decide
  have hcode' : sampleCode byteListDevice turningBytes 12 = 1 := by decide
  obtain ⟨-, -, -, hslew⟩ := firmware_slew byteListDevice (fun _ => 0) ⟨0⟩ turningBytes (fun _ => 0) (servedConversions 1)
    (servedConversions 2) (hserved.symm ▸ one_pos) (hserved'.symm ▸ two_pos)
  have hone := hslew 1 (by
    rw [hserved, hserved', hcode, hcode']
    exact .of_abs_sub_le (by norm_num))
  rw [show (3.36 : ℝ) * 1 + 1.22 = 4.58 by norm_num] at hone
  exact ⟨hone 0, hone 1, hone 2⟩

end FocFirmware
