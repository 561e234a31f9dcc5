import FocFirmware.BaseThreePhase
import FocFirmware.ControlStep
import FocFirmware.FirmwareSystem

/-! The voltage that the compare registers put on the motor, seen from the rotor. After a good calibration every
control step puts six volts across the rotor and none along it, up to the resolution of the timer and of the
angle, in every interleaving of the firmware. -/

namespace FocFirmware

open Interrupts Remainder Runs ThreePhase

section Model

variable {K : Type*}

def duties (g : FocGlobals K) : Fin 3 → K := ![g.gPwmA, g.gPwmB, g.gPwmC]

def compareValues (g : FocGlobals K) : Fin 3 → ℤ := ![g.c1dt, g.c2dt, g.c3dt]

variable [Field K]

/-- The mean voltage of each phase over one period of the timer. -/
def phaseVoltages (g : FocGlobals K) (k : Fin 3) : K := g.gUdc * (compareValues g k / focAllDuty)

end Model

/-- From the rotor at electrical angle `th` the voltage is across it, six volts up to `err`. -/
structure AcrossRotor (th err : ℝ) (g : FocGlobals ℝ) : Prop where
  along : |direct th (phaseVoltages g)| ≤ err
  across : |quadrature th (phaseVoltages g) - 6| ≤ err

theorem AcrossRotor.mono {th err err' : ℝ} {g : FocGlobals ℝ} (h : AcrossRotor th err g) (hle : err ≤ err') :
    AcrossRotor th err' g := ⟨h.along.trans hle, h.across.trans hle⟩

section Step

theorem driveAtAngle_globals (m : ℝ) {g : FocGlobals ℝ} (hUdc : g.gUdc = 24) :
    (driveAtAngle m g).2.gUdc = 24 ∧ (driveAtAngle m g).2.gZeroOffset = g.gZeroOffset := ⟨hUdc, rfl⟩

/-- The duties of one step, and the compare values as their integer parts. -/
theorem driveAtAngle_duties (m : ℝ) {g : FocGlobals ℝ} (hUdc : g.gUdc = 24) (k : Fin 3) :
    |duties (driveAtAngle m g).2 k - balanced (1 / 2) (1 / 4) (angleGetCorrectedElec g.gZeroOffset m) k| ≤ 2e-5 ∧
      compareValues (driveAtAngle m g).2 k = ⌊focAllDuty * duties (driveAtAngle m g).2 k⌋ := by
  obtain ⟨hua, hub, huc⟩ := driveAtAngle_voltages m g hUdc
  obtain ⟨hina, hinb, hinc⟩ := driveAtAngle_inside m g hUdc
  have hpwm : (driveAtAngle m g).2 = _ := motorSetPwm_of_mem hina hinb hinc
  have hknown := sineKnown_corrected g.gZeroOffset m
  rw [hpwm]
  fin_cases k
  · refine ⟨?_, rfl⟩
    have hnear := phaseA_near hknown
    simp only [balanced_eq, axis_eq, duties]
    convert hnear using 3
    · exact hua
    · simp
  · refine ⟨?_, rfl⟩
    have hnear := phaseB_near hknown
    simp only [balanced_eq, axis_eq, duties]
    convert hnear using 3
    · exact hub
    · simp
  · refine ⟨?_, rfl⟩
    have hnear := phaseC_near hknown
    simp only [balanced_eq, axis_eq, duties]
    convert hnear using 3
    · exact huc
    · simp

/-- The timer's resolution: the voltages of the compare values are within one count of those of the duties. -/
theorem phaseVoltages_near {g : FocGlobals ℝ} (hUdc : g.gUdc = 24) {k : Fin 3}
    (hcompare : compareValues g k = ⌊focAllDuty * duties g k⌋) : |phaseVoltages g k - 24 * duties g k| ≤ 0.0048 := by
  have hlow := Int.sub_one_lt_floor (focAllDuty * duties g k)
  have hhigh := Int.floor_le (focAllDuty * duties g k)
  rw [← hcompare] at hlow hhigh
  rw [phaseVoltages, hUdc]
  norm_num [focAllDuty] at hlow hhigh ⊢
  exact abs_le.mpr ⟨by linarith, by linarith⟩

/-- Phase voltages near those of a balanced set of six volts are across its rotor. -/
theorem acrossRotor_of_near {g : FocGlobals ℝ} {th e : ℝ} (he : ∀ k, |phaseVoltages g k - balanced 12 6 th k| ≤ e) :
    AcrossRotor th (2 * e) g := by
  refine ⟨?_, ?_⟩
  · have hdirect := abs_direct_sub_le th he
    rwa [direct_balanced, sub_zero] at hdirect
  · have hquadrature := abs_quadrature_sub_le th he
    rwa [quadrature_balanced] at hquadrature

/-- After one step, in the frame of the angle it was made for. -/
theorem driveAtAngle_near (m : ℝ) {g : FocGlobals ℝ} (hUdc : g.gUdc = 24) (k : Fin 3) :
    |phaseVoltages (driveAtAngle m g).2 k - balanced 12 6 (angleGetCorrectedElec g.gZeroOffset m) k| ≤ 0.0053 := by
  obtain ⟨hduty, hcompare⟩ := driveAtAngle_duties m hUdc k
  obtain ⟨hlow, hhigh⟩ := abs_le.mp (phaseVoltages_near (driveAtAngle_globals m hUdc).1 hcompare)
  rw [balanced] at hduty ⊢
  obtain ⟨hduty1, hduty2⟩ := abs_le.mp hduty
  exact abs_le.mpr ⟨by linarith, by linarith⟩

/-- An angle less the offset, both known up to turns. -/
theorem nearMod_sub {p d e x off c th : ℝ} (hx : NearMod p e x (c + th)) (hoff : NearMod p d off c) :
    NearMod p (e + d) (x - off) th := by
  obtain ⟨m, hm⟩ := hx
  obtain ⟨n, hn⟩ := hoff
  obtain ⟨hm1, hm2⟩ := abs_le.mp hm
  obtain ⟨hn1, hn2⟩ := abs_le.mp hn
  refine ⟨m - n, ?_⟩
  push_cast
  rw [sub_mul]
  exact abs_le.mpr ⟨by linarith, by linarith⟩

/-- A turn of the rounded constant against one of the circle. -/
theorem turn_near {x y e : ℝ} (hx : 0 ≤ x ∧ x ≤ foc2Pi) (hy : 0 ≤ y ∧ y ≤ foc2Pi) (he : e ≤ 6) (h : NearMod foc2Pi e x y) :
    ∃ n : ℤ, |x - y - n * (2 * Real.pi)| ≤ e + 6e-6 := by
  obtain ⟨n, hn⟩ := h
  obtain ⟨hn1, hn2⟩ := abs_le.mp hn
  have hpi1 := Real.pi_gt_d6
  have hpi2 := Real.pi_lt_d6
  have hbelow : n < 2 := by
    apply lt_of_periods_lt (foc2Pi_pos (K := ℝ))
    norm_num [foc2Pi] at *
    linarith
  have habove : -2 < n := by
    apply lt_of_periods_lt (foc2Pi_pos (K := ℝ))
    norm_num [foc2Pi] at *
    linarith
  refine ⟨n, ?_⟩
  norm_num [foc2Pi] at hn1 hn2
  obtain rfl | rfl | rfl : n = -1 ∨ n = 0 ∨ n = 1 := by omega
  all_goals
    push_cast at *
    exact abs_le.mpr ⟨by linarith, by linarith⟩

/-- **One step seen from the rotor.** The rotor's angle need only be known up to `e`. -/
theorem driveAtAngle_across {m th e : ℝ} {g : FocGlobals ℝ} (hUdc : g.gUdc = 24) (hth : 0 ≤ th ∧ th ≤ foc2Pi) (he : e ≤ 6)
    (hnear : NearMod foc2Pi e (angleGetCorrectedElec g.gZeroOffset m) th) :
    AcrossRotor th (0.011 + 12 * e) (driveAtAngle m g).2 := by
  have hcorrected : angleGetCorrectedElec g.gZeroOffset m ≤ foc2Pi :=
    (angleGetCorrectedElec_le _ _).trans (by norm_num [focEpsilon])
  obtain ⟨n, hn⟩ := turn_near ⟨angleGetCorrectedElec_nonneg _ _, hcorrected⟩ hth he hnear
  have hphases : ∀ k, |phaseVoltages (driveAtAngle m g).2 k - balanced 12 6 th k| ≤ 0.0055 + 6 * e := by
    intro k
    have hturn : |balanced 12 6 (angleGetCorrectedElec g.gZeroOffset m) k - balanced 12 6 th k| ≤ 6 * (e + 6e-6) :=
      abs_balanced_sub_le n (by norm_num) hn k
    obtain ⟨hstep1, hstep2⟩ := abs_le.mp (driveAtAngle_near m hUdc k)
    obtain ⟨hturn1, hturn2⟩ := abs_le.mp hturn
    exact abs_le.mpr ⟨by linarith, by linarith⟩
  rw [show 0.011 + 12 * e = 2 * (0.0055 + 6 * e) by ring]
  exact acrossRotor_of_near hphases

end Step

section Run

variable {σ : Type} (dev : SpiDevice σ) (encoder : Mt6701 ℝ) (port : σ)

/-- What the calibration and `n` control steps have left: `11 + n` frames are read, the last one is the angle. -/
structure ControlledAt (n : ℕ) (s : PwmSystem ℝ σ) : Prop where
  udc : s.globals.gUdc = 24
  offset : s.globals.gZeroOffset = (∑ i ∈ Finset.range 10, sampleElec dev port i) / 10
  angle : s.encoder.angle = sampleMech dev port (10 + n)
  frames : s.port = dev.afterFrames port (11 + n)

theorem calibrated_at : ControlledAt dev port 0 (pwmCalibrated dev encoder port) := by
  have hport := (sampleAngles_eq dev port encoder 10).2
  refine ⟨?_, zeroOffset_eq_mean dev port encoder _, ?_, ?_⟩
  · norm_num [pwmCalibrated, angleInitZeroOffset, motorApplyStrongDrag, motorSetPwm, setpwmChannel, PwmSystem.initial]
  · simp only [pwmCalibrated, angleInitZeroOffset, mt6701GetAngle_eq, PwmSystem.initial, hport]
    rfl
  · simp only [pwmCalibrated, angleInitZeroOffset, mt6701GetAngle_eq, PwmSystem.initial, hport]
    rfl

/-- A control step reads the next frame. -/
theorem serveControl_at {n : ℕ} {x : PwmSystem ℝ σ × FocState ℝ} (h : ControlledAt dev port n x.1) :
    ControlledAt dev port (n + 1) (serveControl dev x).1 ∧
      (serveControl dev x).1.globals = (driveAtAngle (sampleMech dev port (11 + n)) x.1.globals).2 := by
  have hstep : (serveControl dev x).1 =
      { x.1 with
        globals := (driveAtAngle (sampleMech dev port (11 + n)) x.1.globals).2
        encoder := ⟨sampleMech dev port (11 + n)⟩
        port := dev.afterFrames port (11 + (n + 1)) } := by
    simp only [serveControl, focContorl, mt6701GetAngle_eq, h.frames]
    rfl
  rw [hstep]
  refine ⟨⟨(driveAtAngle_globals _ h.udc).1, h.offset, ?_, rfl⟩, rfl⟩
  rw [show 10 + (n + 1) = 11 + n by omega]

theorem controlled_at (n : ℕ) : ControlledAt dev port n (controlled dev encoder port n).1 := by
  induction n with
  | zero => exact calibrated_at dev encoder port
  | succ n ih =>
      rw [controlled_succ]
      exact (serveControl_at dev port ih).1

variable (floatBits : ℝ → UInt32) (beyond : ℕ → UInt8)

/-- In the superloop the drive is where the served control steps have brought it. -/
theorem superloop_controlled (events : List (Event HardwareEvent))
    (hpc : (firmwareRun dev floatBits encoder port beyond events).pc = .superloop) :
    (firmwareRun dev floatBits encoder port beyond events).pwm =
      (controlled dev encoder port (controlsServed dev floatBits encoder port beyond events)).1 := by
  have hdriven := (firmware_ordered dev floatBits encoder port beyond events).driven
  rw [DrivenInOrder, hpc] at hdriven
  exact congrArg Prod.fst hdriven.2

end Run

/-- Without a voltage all three phases are at half the supply. -/
theorem strongDrag_zero {g : FocGlobals ℝ} (hUdc : g.gUdc = 24) (k : Fin 3) :
    compareValues (motorApplyStrongDrag 0 g) k = 2500 := by
  have hhalf : motorApplyStrongDrag 0 g = motorSetPwm 12 12 12 g := by norm_num [motorApplyStrongDrag, hUdc]
  have hinside : (0 : ℝ) < 12 ∧ 12 < g.gUdc := by norm_num [hUdc]
  have hfloor : ⌊(focAllDuty : ℝ) * (12 / g.gUdc)⌋ = 2500 := by norm_num [focAllDuty, hUdc]
  rw [hhalf, motorSetPwm_of_mem hinside hinside hinside, hfloor]
  fin_cases k <;> rfl

/-- **Field orientation.** If the readings of the calibration are within `d` of `c` and on one side of the cut, then
in every interleaving the superloop has read frame `10 + n` once it has served the `n`-th conversion; when that puts
the rotor within `delta` of `th` ahead of `c`, the compare values put six volts across the rotor. Before the first
conversion they put none. -/
theorem firmware_orients_field {σ : Type} (dev : SpiDevice σ) (floatBits : ℝ → UInt32) (encoder : Mt6701 ℝ) (port : σ)
    (beyond : ℕ → UInt8) (events : List (Event HardwareEvent)) (c d : ℝ) (hd : d < focPi / 2)
    (hwithin : ReadingsWithin dev port c d) (hside : ReadingsOneSide dev port) :
    let s := firmwareRun dev floatBits encoder port beyond events
    let n := controlsServed dev floatBits encoder port beyond events
    s.pc = .superloop → s.pwm.encoder.angle = sampleMech dev port (10 + n) ∧
      (n = 0 → ∀ k, compareValues s.pwm.globals k = 2500) ∧
      (0 < n → ∀ th delta, 0 ≤ th ∧ th ≤ foc2Pi → d + delta ≤ 5 →
        NearMod foc2Pi delta (calculateElectricalAngle s.pwm.encoder.angle) (c + th) →
        AcrossRotor th (0.012 + 12 * (d + delta)) s.pwm.globals) := by
  intro s n hpc
  have hpwm : s.pwm = (controlled dev encoder port n).1 := superloop_controlled dev encoder port floatBits beyond events hpc
  refine ⟨?_, fun hzero k => ?_, fun hpos th delta hth hdelta hangle => ?_⟩
  · rw [hpwm]
    exact (controlled_at dev encoder port n).angle
  · rw [hpwm, hzero]
    exact strongDrag_zero (calibrated_at dev encoder port).udc k
  · obtain ⟨m, hm⟩ := Nat.exists_eq_succ_of_ne_zero hpos.ne'
    have hbefore := controlled_at dev encoder port m
    obtain ⟨hafter, hglobals⟩ := serveControl_at dev port hbefore
    rw [← controlled_succ, ← Nat.succ_eq_add_one, ← hm, ← hpwm] at hafter hglobals
    have hoffset : NearMod foc2Pi d (controlled dev encoder port m).1.globals.gZeroOffset c := by
      rw [hbefore.offset]
      exact (calibrationHolds_of_oneSide dev port hd hwithin hside).offset_near
    rw [hafter.angle] at hangle
    have hnear := (corrected_near _ _).trans (nearMod_sub hangle hoffset)
    rw [hm, show 10 + m.succ = 11 + m by omega] at hnear
    have hsmall : (focEpsilon : ℝ) = 1e-6 := rfl
    have hacross := driveAtAngle_across hbefore.udc hth (by linarith) hnear
    rw [hglobals]
    exact hacross.mono (by linarith)

theorem resting_elec {i : ℕ} (hi : i < 12) : (sampleElec byteListDevice [] i : ℝ) = 0 := by
  have hcode : ∀ i < 12, mt6701RawData (byteListDevice.frameBytes (byteListDevice.afterFrames [] i)).1
      (byteListDevice.frameBytes (byteListDevice.afterFrames [] i)).2.1
      (byteListDevice.frameBytes (byteListDevice.afterFrames [] i)).2.2 = 0 := by decide
  rw [sampleElec, sampleMech, mt6701Angle_eq, calculateElectricalAngle_code, hcode i hi]
  norm_num

/-- The superloop is reached, and `n` conversions are served. -/
def servedConversions (n : ℕ) : List (Event HardwareEvent) :=
  List.replicate 20 .cpu ++ (List.replicate n [.hardware .conversion, .cpu]).flatten

/-- A rotor that never moves, at the zero of its calibration, after one control step. -/
theorem firmware_orients_field_at_rest :
    AcrossRotor 0 0.012 (firmwareRun byteListDevice (fun _ => 0) ⟨(0 : ℝ)⟩ [] (fun _ => 0) (servedConversions 1)).pwm.globals := by
  have hserved : controlsServed byteListDevice (fun _ => 0) ⟨(0 : ℝ)⟩ [] (fun _ => 0) (servedConversions 1) = 1 := rfl
  obtain ⟨hangle, -, hacross⟩ := firmware_orients_field byteListDevice (fun _ => 0) ⟨0⟩ [] (fun _ => 0) (servedConversions 1)
    0 0 (by norm_num [focPi])
    (fun i hi => by
      rw [resting_elec (by omega)]
      exact .of_abs_sub_le (by norm_num))
    (fun i hi j hj => by
      rw [resting_elec (by omega), resting_elec (by omega)]
      norm_num [focPi])
    rfl
  have hzero : calculateElectricalAngle (sampleMech byteListDevice [] 11 : ℝ) = 0 := resting_elec (by norm_num)
  rw [hserved] at hangle hacross
  have hstep := hacross one_pos 0 0 ⟨le_rfl, foc2Pi_pos.le⟩ (by norm_num) (by
    rw [hangle, hzero]
    exact .of_abs_sub_le (by norm_num))
  norm_num at hstep ⊢
  exact hstep

end FocFirmware
