import FocFirmware.BaseRuns
import FocFirmware.ControlCalibration
import FocFirmware.ControlStep
import FocFirmware.SvpwmMemory

/-! Runs of everything that drives timer 1: the clamped voltages of `MotorSetPwm` and its two callers, and
the modulator through `setSVpwm`. Both ways keep the duties within the period in every order of calls. -/

namespace FocFirmware

open Remainder Runs

section Model

variable {K : Type*} [Field K] [LinearOrder K] [FloorRing K]

/-- `setSVpwm`. -/
def setSvpwm (p : SvpwmState K) (g : FocGlobals K) : FocGlobals K := setpwmChannel p.ta p.tb p.tc g

/-- The globals of `FOC.c`, `TpSVpwm`, the encoder object, and the port behind it. -/
structure PwmSystem (K : Type*) (σ : Type) where
  globals : FocGlobals K
  modulator : SvpwmState K
  encoder : Mt6701 K
  port : σ

/-- `TpSVpwm` as initialised; what the initialiser does not name is zero. -/
def tpSvpwm : SvpwmState K := ⟨1.0, 0, 0, 0, 0, 0, 0, 0, 0, 0, 0, 0, 0, 0, 0, 0, 0, 0⟩

/-- The initial globals; the compare values are those of `wk_tmr1_init`. -/
def PwmSystem.initial {σ : Type} (encoder : Mt6701 K) (port : σ) : PwmSystem K σ :=
  ⟨⟨24.0, 0, 0, 0, 0, 0, 0, 0, 0⟩, tpSvpwm, encoder, port⟩

/-- The calls that reach `setpwm_channel`. -/
inductive PwmCall (K : Type*) where
  | motorSetPwm (ua ub uc : K)
  | motorApplyStrongDrag (ud : K)
  | focContorl
  | svpwm (uAlpha uBeta : K)

variable {σ : Type} (dev : SpiDevice σ)

def pwmStep (s : PwmSystem K σ) : PwmCall K → PwmSystem K σ
  | .motorSetPwm ua ub uc => { s with globals := motorSetPwm ua ub uc s.globals }
  | .motorApplyStrongDrag ud => { s with globals := motorApplyStrongDrag ud s.globals }
  | .focContorl =>
      let (_, globals, encoder, port) := focContorl dev s.encoder s.globals s.port
      { s with globals := globals, encoder := encoder, port := port }
  | .svpwm uAlpha uBeta =>
      let modulator := svpwm s.globals.gUdc uAlpha uBeta s.modulator
      { s with modulator := modulator, globals := setSvpwm modulator s.globals }

/-- The divisors of a call, in the order of the source: remainders by one turn, the encoder's scale, halves,
the supply, and the sum of the dwell times where it exceeds the period. -/
def PwmCall.divisors (s : PwmSystem K σ) : PwmCall K → List K
  | .motorSetPwm _ _ _ => [s.globals.gUdc, s.globals.gUdc, s.globals.gUdc]
  | .motorApplyStrongDrag _ => [foc2Pi, foc2Pi, 2.0, 2.0, 2.0, 2.0, 2.0, s.globals.gUdc, s.globals.gUdc, s.globals.gUdc]
  | .focContorl =>
      [16384.0, 360.0, foc2Pi, foc2Pi, 2.0, 2.0, 2.0, 2.0, 2.0, s.globals.gUdc, s.globals.gUdc, s.globals.gUdc]
  | .svpwm uAlpha uBeta =>
      let modulator := FocFirmware.svpwm s.globals.gUdc uAlpha uBeta s.modulator
      if modulator.sum > modulator.ts then [s.globals.gUdc, modulator.sum, 2.0] else [s.globals.gUdc, 2.0]

/-- The duties a call has handed to `setpwm_channel`, from the state it leaves. -/
def PwmCall.duties (s : PwmSystem K σ) : PwmCall K → List K
  | .svpwm _ _ => [s.modulator.ta, s.modulator.tb, s.modulator.tc]
  | _ => [s.globals.gPwmA, s.globals.gPwmB, s.globals.gPwmC]

end Model

section Range

/-- A duty between nothing and the whole period. -/
def IsDuty (x : ℝ) : Prop := 0 ≤ x ∧ x ≤ 1

/-- What holds between calls. -/
structure PwmInRange {σ : Type} (s : PwmSystem ℝ σ) : Prop where
  udc_eq : s.globals.gUdc = 24
  ts_eq : s.modulator.ts = 1
  times : ∀ t ∈ [s.modulator.ta, s.modulator.tb, s.modulator.tc], IsDuty t
  pwm : ∀ d ∈ [s.globals.gPwmA, s.globals.gPwmB, s.globals.gPwmC], IsDuty d

/-- The floats a call converts for channels 1 to 3, and the compare values it leaves there. -/
structure WritesInRange {σ : Type} (call : PwmCall ℝ) (s : PwmSystem ℝ σ) : Prop where
  converted : ∀ d ∈ call.duties s, 0 ≤ d * focAllDuty ∧ d * focAllDuty ≤ focAllDuty
  written : [s.globals.c1dt, s.globals.c2dt, s.globals.c3dt] = (call.duties s).map fun d => truncToInt (d * focAllDuty)
  compare : ∀ c ∈ [s.globals.c1dt, s.globals.c2dt, s.globals.c3dt], 0 ≤ c ∧ c ≤ 5000

theorem limitValue_mem {x low high : ℝ} (h : low ≤ high) : low ≤ limitValue x low high ∧ limitValue x low high ≤ high := by
  unfold limitValue
  split_ifs with hhigh hlow
  · exact ⟨h, le_rfl⟩
  · exact ⟨le_rfl, h⟩
  · exact ⟨(not_le.mp hlow).le, (not_le.mp hhigh).le⟩

theorem isDuty_converted {d : ℝ} (h : IsDuty d) : 0 ≤ d * focAllDuty ∧ d * focAllDuty ≤ focAllDuty := by
  have hall : (0 : ℝ) ≤ focAllDuty := by norm_num [focAllDuty]
  exact ⟨mul_nonneg h.1 hall, mul_le_of_le_one_left hall h.2⟩

theorem isDuty_compare {d : ℝ} (h : IsDuty d) : 0 ≤ truncToInt (d * focAllDuty) ∧ truncToInt (d * focAllDuty) ≤ 5000 := by
  obtain ⟨hlow, hhigh⟩ := isDuty_converted h
  rw [truncToInt_of_nonneg hlow]
  refine ⟨Int.floor_nonneg.mpr hlow, Int.floor_le_iff.mpr (hhigh.trans_lt ?_)⟩
  norm_num [focAllDuty]

/-- Whatever the voltages, the two limits leave duties. -/
theorem motorSetPwm_duties (ua ub uc : ℝ) (g : FocGlobals ℝ) :
    ∀ d ∈ [(motorSetPwm ua ub uc g).gPwmA, (motorSetPwm ua ub uc g).gPwmB, (motorSetPwm ua ub uc g).gPwmC], IsDuty d := by
  simp only [List.mem_cons, List.not_mem_nil, or_false, forall_eq_or_imp, forall_eq]
  exact ⟨limitValue_mem zero_le_one, limitValue_mem zero_le_one, limitValue_mem zero_le_one⟩

/-- The modulator's times are duties as long as the period is one. -/
theorem svpwm_duties {gUdc : ℝ} (hUdc : 0 < gUdc) (uAlpha uBeta : ℝ) {p : SvpwmState ℝ} (hts : p.ts = 1)
    (htimes : ∀ t ∈ [p.ta, p.tb, p.tc], IsDuty t) :
    let q := svpwm gUdc uAlpha uBeta p
    ∀ t ∈ [q.ta, q.tb, q.tc], IsDuty t := by
  intro q
  by_cases hne : uAlpha = 0 ∧ uBeta = 0
  · have hkept : q.switchTimes = p.switchTimes := by
      obtain ⟨rfl, rfl⟩ := hne
      exact svpwm_zero gUdc p
    simp only [SvpwmState.switchTimes, Prod.mk.injEq] at hkept
    obtain ⟨ha, hb, hc⟩ := hkept
    rwa [ha, hb, hc]
  · have hcentred : Centred p.ts q := svpwm_centred hUdc (hts ▸ zero_lt_one) hne
    obtain ⟨hnull, hhigh, hlow⟩ := hcentred
    rw [hts] at hhigh
    obtain ⟨hamax, hbcmax⟩ := max_le_iff.mp hhigh.le
    obtain ⟨hbmax, hcmax⟩ := max_le_iff.mp hbcmax
    obtain ⟨hamin, hbcmin⟩ := le_min_iff.mp hlow.ge
    obtain ⟨hbmin, hcmin⟩ := le_min_iff.mp hbcmin
    simp only [List.mem_cons, List.not_mem_nil, or_false, forall_eq_or_imp, forall_eq]
    exact ⟨⟨by linarith, by linarith⟩, ⟨by linarith, by linarith⟩, ⟨by linarith, by linarith⟩⟩

end Range

section Steps

variable {σ : Type} (dev : SpiDevice σ)

theorem pwmInitial_inRange {encoder : Mt6701 ℝ} {port : σ} : PwmInRange (PwmSystem.initial encoder port) := by
  constructor <;> norm_num [PwmSystem.initial, tpSvpwm, IsDuty]

/-- A call either sets voltages and leaves the modulator, or runs the modulator. -/
theorem pwmStep_cases (s : PwmSystem ℝ σ) (call : PwmCall ℝ) :
    (∃ ua ub uc, (pwmStep dev s call).globals = motorSetPwm ua ub uc s.globals ∧
      (pwmStep dev s call).modulator = s.modulator) ∨ ∃ uAlpha uBeta, call = .svpwm uAlpha uBeta := by
  cases call with
  | motorSetPwm ua ub uc => exact .inl ⟨ua, ub, uc, rfl, rfl⟩
  | motorApplyStrongDrag ud => exact .inl ⟨_, _, _, rfl, rfl⟩
  | focContorl => exact .inl ⟨_, _, _, rfl, rfl⟩
  | svpwm uAlpha uBeta => exact .inr ⟨uAlpha, uBeta, rfl⟩

theorem pwmStep_inRange {s : PwmSystem ℝ σ} (hs : PwmInRange s) (call : PwmCall ℝ) :
    PwmInRange (pwmStep dev s call) := by
  obtain ⟨hUdc, hts, htimes, hpwm⟩ := hs
  rcases pwmStep_cases dev s call with ⟨ua, ub, uc, hglobals, hmodulator⟩ | ⟨uAlpha, uBeta, rfl⟩
  · refine ⟨?_, hmodulator ▸ hts, hmodulator ▸ htimes, hglobals ▸ motorSetPwm_duties ua ub uc s.globals⟩
    rw [hglobals]
    exact hUdc
  · have hpos : 0 < s.globals.gUdc := by
      rw [hUdc]
      norm_num
    exact ⟨hUdc, (switchSector_frame _).1.trans hts, svpwm_duties hpos uAlpha uBeta hts htimes, hpwm⟩

theorem pwmStep_writes {s : PwmSystem ℝ σ} (hs : PwmInRange s) (call : PwmCall ℝ) :
    WritesInRange call (pwmStep dev s call) := by
  have hnext := pwmStep_inRange dev hs call
  have hwritten : [(pwmStep dev s call).globals.c1dt, (pwmStep dev s call).globals.c2dt, (pwmStep dev s call).globals.c3dt] =
      (call.duties (pwmStep dev s call)).map fun d => truncToInt (d * focAllDuty) := by
    cases call <;> rfl
  have hduties : ∀ d ∈ call.duties (pwmStep dev s call), IsDuty d := by
    cases call with
    | svpwm uAlpha uBeta => exact hnext.times
    | motorSetPwm ua ub uc => exact hnext.pwm
    | motorApplyStrongDrag ud => exact hnext.pwm
    | focContorl => exact hnext.pwm
  refine ⟨fun d hd => isDuty_converted (hduties d hd), hwritten, fun c hc => ?_⟩
  rw [hwritten] at hc
  obtain ⟨d, hd, rfl⟩ := List.mem_map.mp hc
  exact isDuty_compare (hduties d hd)

theorem divisors_ne_zero {s : PwmSystem ℝ σ} (hs : PwmInRange s) (call : PwmCall ℝ) : ∀ d ∈ call.divisors s, d ≠ 0 := by
  have hUdc : s.globals.gUdc ≠ 0 := by
    rw [hs.udc_eq]
    norm_num
  have hturn : (foc2Pi : ℝ) ≠ 0 := foc2Pi_pos.ne'
  cases call with
  | motorSetPwm ua ub uc => simp [PwmCall.divisors, hUdc]
  | motorApplyStrongDrag ud => norm_num [PwmCall.divisors, hUdc, hturn]
  | focContorl => norm_num [PwmCall.divisors, hUdc, hturn]
  | svpwm uAlpha uBeta =>
      have hts : (svpwm s.globals.gUdc uAlpha uBeta s.modulator).ts = 1 := (switchSector_frame _).1.trans hs.ts_eq
      simp only [PwmCall.divisors, hts]
      split_ifs with hover
      · have hsum : (svpwm s.globals.gUdc uAlpha uBeta s.modulator).sum ≠ 0 := (zero_lt_one.trans hover).ne'
        norm_num [hUdc, hsum]
      · norm_num [hUdc]

end Steps

/-- **The compare values.** From the initial globals every run of calls keeps the period, the switching times
and the duties in range, and whatever call comes next divides by no zero, converts no negative float and
writes compare values within the period. -/
theorem compare_values_in_range {σ : Type} (dev : SpiDevice σ) (encoder : Mt6701 ℝ) (port : σ)
    (calls : List (PwmCall ℝ)) :
    let s := run (pwmStep dev) (PwmSystem.initial encoder port) calls
    PwmInRange s ∧ ∀ call : PwmCall ℝ, (∀ d ∈ call.divisors s, d ≠ 0) ∧ WritesInRange call (pwmStep dev s call) := by
  intro s
  have hs : PwmInRange s := run_invariant PwmInRange (fun _ call h => pwmStep_inRange dev h call) pwmInitial_inRange calls
  exact ⟨hs, fun call => ⟨divisors_ne_zero hs call, pwmStep_writes dev hs call⟩⟩

end FocFirmware
