import FocFirmware.PwmRuns

/-! Division by zero in the calls that reach `setpwm_channel`. The calls once more over an arithmetic that may give
anything for a divisor of zero: what a call computes depends on it through the listed divisors only, so where none of
them is zero it makes no difference. -/

namespace FocFirmware

open Remainder Runs

/-- A quotient and a remainder. -/
structure Arith (K : Type*) where
  div : K → K → K
  rem : K → K → K

namespace Arith

section Model

variable {K : Type*} [Field K] [LinearOrder K] [FloorRing K]

def exact : Arith K := ⟨(· / ·), fmod⟩

/-- Right for every divisor but zero. -/
def Sound (a : Arith K) : Prop := ∀ x y, y ≠ 0 → a.div x y = x / y ∧ a.rem x y = fmod x y

variable (a : Arith K)

def normalizeAngle (angle : K) : K :=
  let result := a.rem angle foc2Pi
  if 0 ≤ result then result else result + foc2Pi

def angleGetCorrectedElec (gZeroOffset mechAngle : K) : K :=
  let elecAngle := a.normalizeAngle (mechAngle * focPolePairs)
  let corrected := elecAngle - gZeroOffset
  let corrected := a.normalizeAngle corrected
  if |corrected - foc2Pi| < focEpsilon then 0 else corrected

def motorSetPwm (ua ub uc : K) (g : FocGlobals K) : FocGlobals K :=
  let ua := limitValue ua 0 g.gUdc
  let ub := limitValue ub 0 g.gUdc
  let uc := limitValue uc 0 g.gUdc
  let g := { g with
    gPwmA := limitValue (a.div ua g.gUdc) 0 1
    gPwmB := limitValue (a.div ub g.gUdc) 0 1
    gPwmC := limitValue (a.div uc g.gUdc) 0 1 }
  setpwmChannel g.gPwmA g.gPwmB g.gPwmC g

def motorApplyStrongDrag (ud : K) (g : FocGlobals K) : FocGlobals K :=
  let uq : K := 0
  let angleEl := a.angleGetCorrectedElec g.gZeroOffset 0
  let uAlpha := -uq * fastSin angleEl + ud * fastCos angleEl
  let uBeta := uq * fastCos angleEl + ud * fastSin angleEl
  let ua := uAlpha + a.div g.gUdc 2.0
  let ub := a.div (focSqrt3 * uBeta - uAlpha) 2.0 + a.div g.gUdc 2.0
  let uc := a.div (-focSqrt3 * uBeta - uAlpha) 2.0 + a.div g.gUdc 2.0
  a.motorSetPwm ua ub uc g

def mt6701Angle (raw1 raw2 raw3 : UInt8) : K :=
  let rawData := mt6701RawData raw1 raw2 raw3
  let angleDeg : K := a.div ((rawData : K) * 360.0) 16384.0
  a.div (angleDeg * foc2Pi) 360.0

/-- The whole numbers of the source are converted. -/
def invClarkeTransform (gUdc uAlpha uBeta : K) : K × K × K :=
  let two : K := (2 : ℕ)
  (uAlpha + a.div gUdc two, a.div (focSqrt3 * uBeta - uAlpha) two + a.div gUdc two,
    a.div (-focSqrt3 * uBeta - uAlpha) two + a.div gUdc two)

def driveAtAngle (mechanicalAngle : K) (g : FocGlobals K) : FocState K × FocGlobals K :=
  let correctedAngle := a.angleGetCorrectedElec g.gZeroOffset mechanicalAngle
  let ud : K := 0
  let uq : K := (6 : ℕ)
  let (uAlpha, uBeta) := invParkTransform uq ud correctedAngle
  let (ua, ub, uc) := a.invClarkeTransform g.gUdc uAlpha uBeta
  (⟨mechanicalAngle, correctedAngle, ud, uq, uAlpha, uBeta, ua, ub, uc⟩, a.motorSetPwm ua ub uc g)

def focContorl {σ : Type} (dev : SpiDevice σ) (encoder : Mt6701 K) (g : FocGlobals K) (s : σ) :
    FocState K × FocGlobals K × Mt6701 K × σ :=
  let bytes := dev.frameBytes s
  let mechanicalAngle := a.mt6701Angle bytes.1 bytes.2.1 bytes.2.2
  let (pFOC, g) := a.driveAtAngle mechanicalAngle g
  (pFOC, g, { encoder with angle := mechanicalAngle }, (dev.readFrame s).2)

def dwell (p : SvpwmState K) (first second : K) : Dwell K :=
  let sum := first + second
  if sum > p.ts then
    let kSvpwm := a.div p.ts sum
    let first := first * kSvpwm
    let second := second * kSvpwm
    ⟨first, second, a.div (p.ts - first - second) 2.0, sum, kSvpwm⟩
  else ⟨first, second, a.div (p.ts - first - second) 2.0, sum, p.kSvpwm⟩

def projectVector (gUdc uAlpha uBeta : K) (p : SvpwmState K) : SvpwmState K :=
  let k := a.div (focSqrt3 * p.ts) gUdc
  let u1 := uBeta * k
  let u2 := (focSqrt3 * uAlpha - foc1_2 * uBeta) * k
  let u3 := (-focSqrt3 * uAlpha - foc1_2 * uBeta) * k
  { p with k := k, u1 := u1, u2 := u2, u3 := u3, sector := sectorOf u1 u2 u3 }

def switchSector (p : SvpwmState K) : SvpwmState K :=
  match p.sector with
  | 3 =>
      let d := a.dwell p p.u2 p.u1
      { p with
        t4 := d.first, t6 := d.second, sum := d.sum, kSvpwm := d.kSvpwm, t7 := d.t7
        ta := d.first + d.second + d.t7, tb := d.second + d.t7, tc := d.t7 }
  | 1 =>
      let d := a.dwell p (-p.u2) (-p.u3)
      { p with
        t2 := d.first, t6 := d.second, sum := d.sum, kSvpwm := d.kSvpwm, t7 := d.t7
        ta := d.second + d.t7, tb := d.first + d.second + d.t7, tc := d.t7 }
  | 5 =>
      let d := a.dwell p p.u1 p.u3
      { p with
        t2 := d.first, t3 := d.second, sum := d.sum, kSvpwm := d.kSvpwm, t7 := d.t7
        ta := d.t7, tb := d.first + d.second + d.t7, tc := d.second + d.t7 }
  | 4 =>
      let d := a.dwell p (-p.u1) (-p.u2)
      { p with
        t1 := d.first, t3 := d.second, sum := d.sum, kSvpwm := d.kSvpwm, t7 := d.t7
        ta := d.t7, tb := d.second + d.t7, tc := d.first + d.second + d.t7 }
  | 6 =>
      let d := a.dwell p p.u3 p.u2
      { p with
        t1 := d.first, t5 := d.second, sum := d.sum, kSvpwm := d.kSvpwm, t7 := d.t7
        ta := d.second + d.t7, tb := d.t7, tc := d.first + d.second + d.t7 }
  | 2 =>
      let d := a.dwell p (-p.u3) (-p.u1)
      { p with
        t4 := d.first, t5 := d.second, sum := d.sum, kSvpwm := d.kSvpwm, t7 := d.t7
        ta := d.first + d.second + d.t7, tb := d.t7, tc := d.second + d.t7 }
  | _ => p

def svpwm (gUdc uAlpha uBeta : K) (p : SvpwmState K) : SvpwmState K := a.switchSector (a.projectVector gUdc uAlpha uBeta p)

variable {σ : Type} (dev : SpiDevice σ)

def pwmStep (s : PwmSystem K σ) : PwmCall K → PwmSystem K σ
  | .motorSetPwm ua ub uc => { s with globals := a.motorSetPwm ua ub uc s.globals }
  | .motorApplyStrongDrag ud => { s with globals := a.motorApplyStrongDrag ud s.globals }
  | .focContorl =>
      let (_, globals, encoder, port) := a.focContorl dev s.encoder s.globals s.port
      { s with globals := globals, encoder := encoder, port := port }
  | .svpwm uAlpha uBeta =>
      let modulator := a.svpwm s.globals.gUdc uAlpha uBeta s.modulator
      { s with modulator := modulator, globals := setSvpwm modulator s.globals }

/-- With the exact arithmetic it is the code. -/
theorem pwmStep_exact : exact.pwmStep dev = FocFirmware.pwmStep (K := K) dev := by
  funext s call
  cases call <;> rfl

end Model

section Agreement

variable {K : Type*} [Field K] [LinearOrder K] [FloorRing K] {a : Arith K} (h : a.Sound)

include h

theorem Sound.normalizeAngle_eq (hturn : (foc2Pi : K) ≠ 0) (angle : K) :
    a.normalizeAngle angle = FocFirmware.normalizeAngle angle := by
  simp only [normalizeAngle, (h angle foc2Pi hturn).2, FocFirmware.normalizeAngle]

theorem Sound.angleGetCorrectedElec_eq (hturn : (foc2Pi : K) ≠ 0) (gZeroOffset mechAngle : K) :
    a.angleGetCorrectedElec gZeroOffset mechAngle = FocFirmware.angleGetCorrectedElec gZeroOffset mechAngle := by
  simp only [angleGetCorrectedElec, h.normalizeAngle_eq hturn]
  rfl

theorem Sound.motorSetPwm_eq {g : FocGlobals K} (hUdc : g.gUdc ≠ 0) (ua ub uc : K) :
    a.motorSetPwm ua ub uc g = FocFirmware.motorSetPwm ua ub uc g := by
  simp only [motorSetPwm, (h _ _ hUdc).1, FocFirmware.motorSetPwm]

theorem Sound.motorApplyStrongDrag_eq {g : FocGlobals K} (hturn : (foc2Pi : K) ≠ 0) (htwo : (2.0 : K) ≠ 0) (hUdc : g.gUdc ≠ 0)
    (ud : K) : a.motorApplyStrongDrag ud g = FocFirmware.motorApplyStrongDrag ud g := by
  simp only [motorApplyStrongDrag, h.angleGetCorrectedElec_eq hturn, (h _ _ htwo).1, h.motorSetPwm_eq hUdc,
    FocFirmware.motorApplyStrongDrag]

theorem Sound.mt6701Angle_eq (hscale : (16384.0 : K) ≠ 0) (hdegrees : (360.0 : K) ≠ 0) (raw1 raw2 raw3 : UInt8) :
    a.mt6701Angle raw1 raw2 raw3 = FocFirmware.mt6701Angle raw1 raw2 raw3 := by
  simp only [mt6701Angle, (h _ _ hscale).1, (h _ _ hdegrees).1, FocFirmware.mt6701Angle]

theorem Sound.invClarkeTransform_eq (htwo : (2 : K) ≠ 0) (gUdc uAlpha uBeta : K) :
    a.invClarkeTransform gUdc uAlpha uBeta = FocFirmware.invClarkeTransform gUdc uAlpha uBeta := by
  have hcast : ((2 : ℕ) : K) ≠ 0 := by rwa [Nat.cast_ofNat]
  simp only [invClarkeTransform, (h _ _ hcast).1]
  rfl

theorem Sound.driveAtAngle_eq {g : FocGlobals K} (hturn : (foc2Pi : K) ≠ 0) (htwo : (2 : K) ≠ 0) (hUdc : g.gUdc ≠ 0)
    (mechanicalAngle : K) : a.driveAtAngle mechanicalAngle g = FocFirmware.driveAtAngle mechanicalAngle g := by
  simp only [driveAtAngle, h.angleGetCorrectedElec_eq hturn, h.invClarkeTransform_eq htwo, h.motorSetPwm_eq hUdc]
  rfl

/-- The sum of the dwell times divides where it exceeds the period. -/
theorem Sound.dwell_eq {p : SvpwmState K} (htwo : (2.0 : K) ≠ 0) {first second : K}
    (hsum : first + second > p.ts → first + second ≠ 0) : a.dwell p first second = FocFirmware.dwell p first second := by
  unfold dwell FocFirmware.dwell
  by_cases hover : first + second > p.ts
  · simp only [if_pos hover, (h _ _ (hsum hover)).1, (h _ _ htwo).1]
  · simp only [if_neg hover, (h _ _ htwo).1]

omit h [FloorRing K] in
theorem dwell_sum (p : SvpwmState K) (first second : K) : (FocFirmware.dwell p first second).sum = first + second := by
  unfold FocFirmware.dwell
  dsimp only
  split_ifs <;> rfl

theorem Sound.switchSector_eq {p : SvpwmState K} (htwo : (2.0 : K) ≠ 0)
    (hsum : (FocFirmware.switchSector p).sum > (FocFirmware.switchSector p).ts → (FocFirmware.switchSector p).sum ≠ 0) :
    a.switchSector p = FocFirmware.switchSector p := by
  unfold switchSector
  split
  case h_7 hother =>
    unfold FocFirmware.switchSector
    split <;> first | contradiction | rfl
  all_goals
    rename_i hsector
    simp only [FocFirmware.switchSector, hsector] at hsum ⊢
    rw [dwell_sum] at hsum
    rw [h.dwell_eq htwo hsum]

theorem Sound.svpwm_eq {gUdc uAlpha uBeta : K} {p : SvpwmState K} (hUdc : gUdc ≠ 0) (htwo : (2.0 : K) ≠ 0)
    (hsum : (FocFirmware.svpwm gUdc uAlpha uBeta p).sum > (FocFirmware.svpwm gUdc uAlpha uBeta p).ts →
      (FocFirmware.svpwm gUdc uAlpha uBeta p).sum ≠ 0) :
    a.svpwm gUdc uAlpha uBeta p = FocFirmware.svpwm gUdc uAlpha uBeta p := by
  have hproject : a.projectVector gUdc uAlpha uBeta p = FocFirmware.projectVector gUdc uAlpha uBeta p := by
    simp only [projectVector, (h _ _ hUdc).1, FocFirmware.projectVector]
  rw [svpwm, hproject, h.switchSector_eq htwo hsum]
  rfl

/-- **The divisors are all there is.** Where none of them is zero a call is what it is with exact arithmetic. -/
theorem Sound.pwmStep_eq {σ : Type} (dev : SpiDevice σ) {s : PwmSystem K σ} {call : PwmCall K}
    (hdivisors : ∀ d ∈ call.divisors s, d ≠ 0) : a.pwmStep dev s call = FocFirmware.pwmStep dev s call := by
  cases call with
  | motorSetPwm ua ub uc =>
      simp only [PwmCall.divisors, List.forall_mem_cons] at hdivisors
      simp only [pwmStep, h.motorSetPwm_eq hdivisors.1, FocFirmware.pwmStep]
  | motorApplyStrongDrag ud =>
      simp only [PwmCall.divisors, List.forall_mem_cons] at hdivisors
      obtain ⟨hturn, -, htwo, -, -, -, -, hUdc, -⟩ := hdivisors
      simp only [pwmStep, h.motorApplyStrongDrag_eq hturn htwo hUdc, FocFirmware.pwmStep]
  | focContorl =>
      simp only [PwmCall.divisors, List.forall_mem_cons] at hdivisors
      obtain ⟨hscale, hdegrees, hturn, -, htwo, -, -, -, -, hUdc, -⟩ := hdivisors
      have htwo' : (2 : K) ≠ 0 := by
        rwa [show (2 : K) = 2.0 by norm_num]
      simp only [pwmStep, focContorl, h.mt6701Angle_eq hscale hdegrees, h.driveAtAngle_eq hturn htwo' hUdc]
      rfl
  | svpwm uAlpha uBeta =>
      have hUdc : s.globals.gUdc ≠ 0 := hdivisors _ (by simp only [PwmCall.divisors]; split_ifs <;> simp)
      have htwo : (2.0 : K) ≠ 0 := hdivisors _ (by simp only [PwmCall.divisors]; split_ifs <;> simp)
      have hsum : (FocFirmware.svpwm s.globals.gUdc uAlpha uBeta s.modulator).sum >
          (FocFirmware.svpwm s.globals.gUdc uAlpha uBeta s.modulator).ts →
          (FocFirmware.svpwm s.globals.gUdc uAlpha uBeta s.modulator).sum ≠ 0 := by
        intro hover
        exact hdivisors _ (by simp only [PwmCall.divisors, if_pos hover]; simp)
      simp only [pwmStep, h.svpwm_eq hUdc htwo hsum, FocFirmware.pwmStep]

end Agreement

end Arith

/-- **No division by zero.** Whatever a division by zero would give, every run of calls from the initial globals is the
run with exact arithmetic. -/
theorem pwm_runs_divide_by_no_zero {σ : Type} (dev : SpiDevice σ) (encoder : Mt6701 ℝ) (port : σ) (a : Arith ℝ) (h : a.Sound)
    (calls : List (PwmCall ℝ)) :
    run (a.pwmStep dev) (PwmSystem.initial encoder port) calls =
      run (pwmStep dev) (PwmSystem.initial encoder port) calls := by
  induction calls using List.reverseRecOn with
  | nil => rfl
  | append_singleton calls call ih =>
      have hrange : PwmInRange (run (pwmStep dev) (PwmSystem.initial encoder port) calls) :=
        run_invariant PwmInRange (fun _ call hs => pwmStep_inRange dev hs call) pwmInitial_inRange calls
      rw [run_concat, run_concat, ih]
      exact h.pwmStep_eq dev (divisors_ne_zero hrange call)

/-- Division by zero gives seven. -/
theorem pwm_runs_divide_by_no_zero_seven :
    let a : Arith ℝ := ⟨fun x y => if y = 0 then 7 else x / y, fun x y => if y = 0 then 7 else fmod x y⟩
    let calls : List (PwmCall ℝ) := [.svpwm 100 0, .svpwm 0 0, .motorApplyStrongDrag 1, .focContorl]
    run (a.pwmStep byteListDevice) (PwmSystem.initial ⟨0⟩ []) calls =
      run (pwmStep byteListDevice) (PwmSystem.initial ⟨0⟩ []) calls := by
  intro a calls
  refine pwm_runs_divide_by_no_zero byteListDevice ⟨0⟩ [] a (fun x y hy => ?_) calls
  exact ⟨if_neg hy, if_neg hy⟩

end FocFirmware
