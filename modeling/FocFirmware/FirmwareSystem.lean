import FocFirmware.BaseInterrupts
import FocFirmware.PwmRuns
import FocFirmware.TelemetryWire

/-! The whole firmware: `main` from the first interrupt it enables on, the four interrupt handlers in the
order of their numbers, and the hardware that raises them. All four have one priority. The hardware acts
between any two steps of the processor. A frame of the encoder is one step here, in `main` and in a handler. -/

namespace FocFirmware

open Interrupts Runs

/-- A line that `printf` sends over USART3, with the numbers in it. -/
inductive ConsoleLine (K : Type*) where
  | zeroAngle (gZeroOffset corrected : K)
  | initialised

/-- Where `main` is. The calls of the calibration are steps of their own, as interrupts come between them. -/
inductive MainPc where
  | enableDma2
  | enableIdle
  | startDelay
  | drag
  | sample (i : ℕ)
  | offset
  | enableTmr2
  | enableDma3
  | superloop
  deriving DecidableEq

/-- `main` is past the calibration. -/
def MainPc.calibrated : MainPc → Bool
  | .enableTmr2 | .enableDma3 | .superloop => true
  | _ => false

/-- In the order of the interrupt numbers. -/
inductive Irq where
  | dma1Channel2
  | dma1Channel3
  | tmr2Global
  | usart3
  deriving DecidableEq

/-- A transfer of DMA1 channel 2, a full buffer of channel 3, an overflow of TMR2, an idle line at USART3. -/
inductive HardwareEvent where
  | transfer
  | conversion
  | overflow
  | idleLine
  deriving DecidableEq

structure Firmware (K : Type*) (σ : Type) where
  pc : MainPc
  /-- the sum of the calibration's loop -/
  sum : K
  /-- the array of the superloop -/
  tabc : ℕ → UInt32
  /-- what `printf` has sent -/
  console : List (ConsoleLine K)
  tx : TxState
  pwm : PwmSystem K σ
  motor : FocState K
  fdtInt2 : Bool
  idleInt : Bool
  ovfInt : Bool
  fdtInt3 : Bool
  fdt3 : Bool
  ovf : Bool
  idlef : Bool

section Model

variable {K : Type*} [Field K] [LinearOrder K] [FloorRing K] {σ : Type} (dev : SpiDevice σ)

/-- `Motor` as initialised. -/
def motorInitial : FocState K := ⟨0, 0, 0, 0, 0, 0, 0, 0, 0⟩

/-- `FocContorl(g_pMotor, PSVpwm)`, which leaves `PSVpwm` alone. -/
def serveControl (x : PwmSystem K σ × FocState K) : PwmSystem K σ × FocState K :=
  let (motor, globals, encoder, port) := focContorl dev x.1.encoder x.1.globals x.1.port
  ({ x.1 with globals := globals, encoder := encoder, port := port }, motor)

def dma1Channel3IRQHandler (s : Firmware K σ) : Firmware K σ :=
  if s.fdt3 then
    let (pwm, motor) := serveControl dev (s.pwm, s.motor)
    { s with fdt3 := false, pwm := pwm, motor := motor }
  else s

def tmr2GlobalIRQHandler (s : Firmware K σ) : Firmware K σ := { s with ovf := false }

/-- Empty in the source: the flag of the idle line stays. -/
def usart3IRQHandler (s : Firmware K σ) : Firmware K σ := s

/-- The three floats of `PSVpwm` that `main` sends. -/
def tabcWords (floatBits : K → UInt32) (p : SvpwmState K) (i : ℕ) : UInt32 :=
  floatBits (match i with
    | 0 => p.ta
    | 1 => p.tb
    | _ => p.tc)

/-- One step of `main`; the array is filled when a call of `USART3_SendFloatArray` begins. -/
def mainProgram (floatBits : K → UInt32) (s : Firmware K σ) : Firmware K σ :=
  match s.pc with
  | .enableDma2 => { s with fdtInt2 := true, pc := .enableIdle }
  | .enableIdle => { s with idleInt := true, pc := .startDelay }
  | .startDelay => { s with pc := .drag }
  | .drag =>
      let globals := motorApplyStrongDrag focStrongdrag s.pwm.globals
      { s with pwm := { s.pwm with globals := globals }, sum := 0, pc := .sample 0 }
  | .sample i =>
      if i < 10 then
        let (mechanicalAngle, encoder, port) := mt6701GetAngle dev s.pwm.encoder s.pwm.port
        { s with
          pwm := { s.pwm with encoder := encoder, port := port }
          sum := s.sum + calculateElectricalAngle mechanicalAngle
          pc := .sample (i + 1) }
      else { s with pc := .offset }
  | .offset =>
      let (mechanicalAngle, encoder, port) := mt6701GetAngle dev s.pwm.encoder s.pwm.port
      let globals := { s.pwm.globals with gZeroOffset := s.sum / 10 }
      let corrected := angleGetCorrectedElec globals.gZeroOffset mechanicalAngle
      { s with
        pwm := { s.pwm with globals := motorApplyStrongDrag 0 globals, encoder := encoder, port := port }
        console := s.console ++ [.zeroAngle globals.gZeroOffset corrected] ++ [.initialised]
        pc := .enableTmr2 }
  | .enableTmr2 => { s with ovfInt := true, pc := .enableDma3 }
  | .enableDma3 => { s with fdtInt3 := true, pc := .superloop }
  | .superloop =>
      let tabc := if s.tx.pc = .idle then tabcWords floatBits s.pwm.modulator else s.tabc
      { s with tabc := tabc, tx := mainStep 3 (fun _ => tabc) s.tx }

def pendingIrq (s : Firmware K σ) : Irq → Bool
  | .dma1Channel2 => s.fdtInt2 && s.tx.channel.fdt2
  | .dma1Channel3 => s.fdtInt3 && s.fdt3
  | .tmr2Global => s.ovfInt && s.ovf
  | .usart3 => s.idleInt && s.idlef

def irqHandler : Irq → Firmware K σ → Firmware K σ
  | .dma1Channel2, s => { s with tx := dma1Channel2IRQHandler s.tx }
  | .dma1Channel3, s => dma1Channel3IRQHandler dev s
  | .tmr2Global, s => tmr2GlobalIRQHandler s
  | .usart3, s => usart3IRQHandler s

def hardwareStep : HardwareEvent → Firmware K σ → Firmware K σ
  | .transfer, s => { s with tx := { s.tx with channel := transfer s.tx.mem s.tx.channel } }
  | .conversion, s => { s with fdt3 := true }
  | .overflow, s => { s with ovf := true }
  | .idleLine, s => { s with idlef := true }

def firmware (floatBits : K → UInt32) : Controller (Firmware K σ) Irq where
  order := [.dma1Channel2, .dma1Channel3, .tmr2Global, .usart3]
  pending := pendingIrq
  handler := irqHandler dev
  main := mainProgram dev floatBits

/-- Before the first interrupt is enabled. -/
def Firmware.start (encoder : Mt6701 K) (port : σ) (beyond : ℕ → UInt8) : Firmware K σ :=
  ⟨.enableDma2, 0, fun _ => 0, [], wireStart beyond, .initial encoder port, motorInitial, false, false, false, false,
    false, false, false⟩

def firmwareRun (floatBits : K → UInt32) (encoder : Mt6701 K) (port : σ) (beyond : ℕ → UInt8)
    (events : List (Event HardwareEvent)) : Firmware K σ :=
  run ((firmware dev floatBits).step hardwareStep) (.start encoder port beyond) events

end Model

section Sequential

variable {K : Type*} [Field K] [LinearOrder K] [FloorRing K] {σ : Type} (dev : SpiDevice σ) (encoder : Mt6701 K) (port : σ)

/-- The calibration loop after `n` passes, with nothing else running. -/
def pwmSampling (n : ℕ) : PwmSystem K σ :=
  let start := PwmSystem.initial encoder port
  let (_, encoder, port) := sampleAngles dev start.encoder start.port n
  { start with globals := motorApplyStrongDrag focStrongdrag start.globals, encoder := encoder, port := port }

/-- The calibration alone. -/
def pwmCalibrated : PwmSystem K σ :=
  let start := PwmSystem.initial encoder port
  let (globals, encoder, port) := angleInitZeroOffset dev start.encoder start.globals start.port
  { start with globals := globals, encoder := encoder, port := port }

/-- The calibration, then `n` control steps, one after the other. -/
def controlled (n : ℕ) : PwmSystem K σ × FocState K := (serveControl dev)^[n] (pwmCalibrated dev encoder port, motorInitial)

def conversions (past : List (Event HardwareEvent)) : ℕ :=
  past.countP fun
    | .hardware .conversion => true
    | _ => false

/-- What the calibration alone prints. -/
def calibrationReport : List (ConsoleLine K) :=
  let (sum, encoder, port) := sampleAngles dev encoder port 10
  let (mechanicalAngle, _, _) := mt6701GetAngle dev encoder port
  [.zeroAngle (sum / 10) (angleGetCorrectedElec (sum / 10) mechanicalAngle), .initialised]

/-- What drives the motor is where `main` alone would have brought it, and in the superloop as many control
steps further as the interrupt of the conversions was served, no conversion twice. -/
def DrivenInOrder (served : ℕ) (past : List (Event HardwareEvent)) (s : Firmware K σ) : Prop :=
  match s.pc with
  | .sample i =>
      i ≤ 10 ∧ s.pwm = pwmSampling dev encoder port i ∧ s.sum = (sampleAngles dev encoder port i).1 ∧ s.motor = motorInitial
  | .offset => s.pwm = pwmSampling dev encoder port 10 ∧ s.sum = (sampleAngles dev encoder port 10).1 ∧ s.motor = motorInitial
  | .enableTmr2 | .enableDma3 => s.pwm = pwmCalibrated dev encoder port ∧ s.motor = motorInitial
  | .superloop =>
      served + s.fdt3.toNat ≤ conversions past ∧ (s.pwm, s.motor) = controlled dev encoder port served
  | _ => s.pwm = .initial encoder port ∧ s.motor = motorInitial

/-- What holds between any two steps. -/
structure Ordered (served : ℕ) (past : List (Event HardwareEvent)) (s : Firmware K σ) : Prop where
  driven : DrivenInOrder dev encoder port served past s
  gated : s.fdtInt3 = true → s.pc = .superloop
  flagged : s.fdt3.toNat ≤ conversions past
  unserved : s.pc ≠ .superloop → served = 0
  printed : s.console = if s.pc.calibrated then calibrationReport dev encoder port else []

end Sequential

section Order

variable {K : Type*} [Field K] [LinearOrder K] [FloorRing K] {σ : Type} {dev : SpiDevice σ} {encoder : Mt6701 K} {port : σ}
  {served : ℕ} {past : List (Event HardwareEvent)} {s t : Firmware K σ}

theorem conversions_concat (past : List (Event HardwareEvent)) (e : Event HardwareEvent) :
    conversions (past ++ [e]) = conversions past + conversions [e] := List.countP_append

/-- A step that leaves the drive alone and forgets no conversion. -/
theorem Ordered.of_eq (h : Ordered dev encoder port served past s) {past' : List (Event HardwareEvent)} (hpc : t.pc = s.pc)
    (hsum : t.sum = s.sum) (hpwm : t.pwm = s.pwm) (hmotor : t.motor = s.motor) (hint : t.fdtInt3 = s.fdtInt3)
    (hconsole : t.console = s.console) (hcount : conversions past + t.fdt3.toNat ≤ conversions past' + s.fdt3.toNat) :
    Ordered dev encoder port served past' t := by
  refine ⟨?_, ?_, ?_, ?_, ?_⟩
  · have hdriven := h.driven
    unfold DrivenInOrder at hdriven ⊢
    rw [hpc, hsum, hpwm, hmotor]
    cases hs : s.pc with
    | superloop =>
        rw [hs] at hdriven
        exact ⟨by omega, hdriven.2⟩
    | _ =>
        rw [hs] at hdriven
        exact hdriven
  · rw [hint, hpc]
    exact h.gated
  · have hflagged := h.flagged
    omega
  · rw [hpc]
    exact h.unserved
  · rw [hconsole, hpc]
    exact h.printed

theorem Ordered.hardware (h : Ordered dev encoder port served past s) (e : HardwareEvent) :
    Ordered dev encoder port served (past ++ [.hardware e]) (hardwareStep e s) := by
  have hcount := conversions_concat past (.hardware e)
  have hle : conversions past + s.fdt3.toNat ≤ conversions (past ++ [.hardware e]) + s.fdt3.toNat := by omega
  cases e with
  | conversion =>
      have hone : conversions [.hardware .conversion] = 1 := rfl
      refine h.of_eq rfl rfl rfl rfl rfl rfl ?_
      rw [hcount, hone]
      exact Nat.le_add_right _ _
  | transfer => exact h.of_eq rfl rfl rfl rfl rfl rfl hle
  | overflow => exact h.of_eq rfl rfl rfl rfl rfl rfl hle
  | idleLine => exact h.of_eq rfl rfl rfl rfl rfl rfl hle

theorem conversions_cpu : conversions (past ++ [.cpu]) = conversions past := conversions_concat past _

theorem controlled_succ (n : ℕ) : controlled dev encoder port (n + 1) = serveControl dev (controlled dev encoder port n) :=
  Function.iterate_succ_apply' _ _ _

/-- A served conversion is one control step further. -/
theorem Ordered.control (h : Ordered dev encoder port served past s) (hpending : pendingIrq s .dma1Channel3 = true) :
    Ordered dev encoder port (served + 1) (past ++ [.cpu]) (dma1Channel3IRQHandler dev s) := by
  obtain ⟨hint, hflag⟩ := Bool.and_eq_true_iff.mp hpending
  have hpc := h.gated hint
  have hdriven := h.driven
  rw [DrivenInOrder, hpc] at hdriven
  obtain ⟨hn, hstate⟩ := hdriven
  rw [dma1Channel3IRQHandler, if_pos hflag]
  rw [hflag, Bool.toNat_true] at hn
  refine ⟨?_, fun _ => hpc, Nat.zero_le _, fun hne => absurd hpc hne, h.printed⟩
  rw [DrivenInOrder, hpc]
  refine ⟨?_, ?_⟩
  · rw [conversions_cpu]
    exact hn
  · rw [controlled_succ, ← hstate]

theorem Ordered.irq (h : Ordered dev encoder port served past s) (i : Irq) (hpending : pendingIrq s i = true) :
    Ordered dev encoder port (served + if i = .dma1Channel3 then 1 else 0) (past ++ [.cpu]) (irqHandler dev i s) := by
  have hsame : conversions past + s.fdt3.toNat ≤ conversions (past ++ [.cpu]) + s.fdt3.toNat := by rw [conversions_cpu]
  cases i with
  | dma1Channel3 => exact h.control hpending
  | dma1Channel2 => exact h.of_eq rfl rfl rfl rfl rfl rfl hsame
  | tmr2Global => exact h.of_eq rfl rfl rfl rfl rfl rfl hsame
  | usart3 => exact h.of_eq rfl rfl rfl rfl rfl rfl hsame

/-- A step of `main` before the superloop, which leaves the channel's interrupt disabled. -/
theorem Ordered.before_loop (h : Ordered dev encoder port served past s) (hpc : s.pc ≠ .superloop)
    (hint : t.fdtInt3 = s.fdtInt3) (hflag : t.fdt3 = s.fdt3)
    (hprinted : t.console = if t.pc.calibrated then calibrationReport dev encoder port else [])
    (hdriven : DrivenInOrder dev encoder port served (past ++ [.cpu]) t) :
    Ordered dev encoder port served (past ++ [.cpu]) t := by
  refine ⟨hdriven, fun ht => absurd (h.gated (hint ▸ ht)) hpc, ?_, fun _ => h.unserved hpc, hprinted⟩
  rw [hflag, conversions_cpu]
  exact h.flagged

/-- `main` itself: the calibration is as if nothing else ran, and after it `main` leaves the drive alone. -/
theorem Ordered.main (floatBits : K → UInt32) (h : Ordered dev encoder port served past s) :
    Ordered dev encoder port served (past ++ [.cpu]) (mainProgram dev floatBits s) := by
  have hdriven := h.driven
  have hprinted := h.printed
  unfold DrivenInOrder at hdriven
  cases hpc : s.pc with
  | superloop =>
      simp only [mainProgram, hpc]
      exact h.of_eq hpc.symm rfl rfl rfl rfl rfl (by rw [conversions_cpu])
  | enableDma3 =>
      rw [hpc] at hdriven hprinted
      have hflagged : s.fdt3.toNat ≤ conversions (past ++ [.cpu]) := conversions_cpu.symm ▸ h.flagged
      obtain rfl : served = 0 := h.unserved (by simp [hpc])
      simp only [mainProgram, hpc]
      exact ⟨⟨(Nat.zero_add _).trans_le hflagged, Prod.ext hdriven.1 hdriven.2⟩, fun _ => rfl, hflagged, fun hne => absurd rfl hne,
        hprinted⟩
  | enableDma2 | enableIdle | startDelay | enableTmr2 =>
      rw [hpc] at hdriven hprinted
      simp only [mainProgram, hpc]
      exact h.before_loop (hpc ▸ by decide) rfl rfl hprinted hdriven
  | drag =>
      rw [hpc] at hdriven hprinted
      simp only [mainProgram, hpc]
      refine h.before_loop (hpc ▸ by decide) rfl rfl hprinted ⟨Nat.zero_le _, ?_, rfl, hdriven.2⟩
      rw [hdriven.1]
      rfl
  | sample i =>
      rw [hpc] at hdriven hprinted
      obtain ⟨hi, hpwm, hsum, hmotor⟩ := hdriven
      simp only [mainProgram, hpc]
      split_ifs with hlt
      · refine h.before_loop (by simp [hpc]) rfl rfl hprinted ⟨hlt, ?_, ?_, hmotor⟩
        · rw [hpwm]
          rfl
        · rw [hpwm, hsum]
          rfl
      · have hten : i = 10 := by omega
        rw [hten] at hpwm hsum
        exact h.before_loop (by simp [hpc]) rfl rfl hprinted ⟨hpwm, hsum, hmotor⟩
  | offset =>
      rw [hpc] at hdriven hprinted
      obtain ⟨hpwm, hsum, hmotor⟩ := hdriven
      simp only [mainProgram, hpc]
      refine h.before_loop (by simp [hpc]) rfl rfl ?_ ⟨?_, hmotor⟩
      · rw [hprinted, hpwm, hsum]
        rfl
      · rw [hpwm, hsum]
        rfl

end Order

/-- How often the interrupt of the conversions is served. -/
def controlsServed {K : Type*} [Field K] [LinearOrder K] [FloorRing K] {σ : Type} (dev : SpiDevice σ) (floatBits : K → UInt32)
    (encoder : Mt6701 K) (port : σ) (beyond : ℕ → UInt8) (events : List (Event HardwareEvent)) : ℕ :=
  (firmware dev floatBits).served hardwareStep .dma1Channel3 (.start encoder port beyond) events

/-- Every run keeps the order. -/
theorem firmware_ordered {K : Type*} [Field K] [LinearOrder K] [FloorRing K] {σ : Type} (dev : SpiDevice σ)
    (floatBits : K → UInt32) (encoder : Mt6701 K) (port : σ) (beyond : ℕ → UInt8) (events : List (Event HardwareEvent)) :
    Ordered dev encoder port (controlsServed dev floatBits encoder port beyond events) events
      (firmwareRun dev floatBits encoder port beyond events) := by
  refine Controller.history_served Irq.dma1Channel3 (Ordered dev encoder port) ?_ ?_ ?_ ?_ events
  · refine ⟨⟨rfl, rfl⟩, fun h => ?_, Nat.zero_le _, fun _ => rfl, rfl⟩
    cases h
  · exact fun n past s h _ => h.main floatBits
  · exact fun n past s i h hnext => h.irq i (Controller.pending_of_next hnext)
  · exact fun n past s e h => h.hardware e

/-- **Order of the drive.** In every interleaving of `main`, the interrupts and the hardware, what drives the
motor is what the calibration and then the served control steps give, one after the other. -/
theorem firmware_drives_in_order {K : Type*} [Field K] [LinearOrder K] [FloorRing K] {σ : Type} (dev : SpiDevice σ)
    (floatBits : K → UInt32) (encoder : Mt6701 K) (port : σ) (beyond : ℕ → UInt8) (events : List (Event HardwareEvent)) :
    DrivenInOrder dev encoder port (controlsServed dev floatBits encoder port beyond events) events
      (firmwareRun dev floatBits encoder port beyond events) :=
  (firmware_ordered dev floatBits encoder port beyond events).driven

end FocFirmware
