import FocFirmware.BaseNesting
import FocFirmware.EncoderTrace
import FocFirmware.FirmwareSystem
import FocFirmware.NvicRegisters

/-! The handlers and the calibration one access at a time, under the priorities that `wk_nvic_config` leaves in the
registers. The hardware acts in the middle of a handler, flags are cleared one by one, and interrupts come in the
middle of a frame that `main` reads, yet no handler is broken into and nothing can happen that does not happen with
handlers and frames of one step. -/

namespace FocFirmware

open Calls Interrupts Nesting Runs

def irqNumber : Irq → ℤ
  | .dma1Channel2 => dma1Channel2IRQn
  | .dma1Channel3 => dma1Channel3IRQn
  | .tmr2Global => tmr2GlobalIRQn
  | .usart3 => usart3IRQn

/-- What drives the motor, with what of `main` decides how it goes on. -/
structure DriveView (K : Type*) (σ : Type) where
  pc : MainPc
  sum : K
  console : List (ConsoleLine K)
  pwm : PwmSystem K σ
  motor : FocState K

section View

variable {K : Type*} {σ : Type}

def Firmware.driveView (s : Firmware K σ) : DriveView K σ := ⟨s.pc, s.sum, s.console, s.pwm, s.motor⟩

def Firmware.withDrive (s : Firmware K σ) (d : DriveView K σ) : Firmware K σ :=
  { s with pc := d.pc, sum := d.sum, console := d.console, pwm := d.pwm, motor := d.motor }

def DriveView.setPort (port : σ) (d : DriveView K σ) : DriveView K σ := { d with pwm := { d.pwm with port := port } }

def DriveView.setAngle (angle : K) (d : DriveView K σ) : DriveView K σ :=
  { d with pwm := { d.pwm with encoder := { d.pwm.encoder with angle := angle } } }

/-- A step that touches the drive only. -/
def onDrive {A : Type} (f : DriveView K σ → A × DriveView K σ) (s : Firmware K σ) : A × Firmware K σ :=
  ((f s.driveView).1, s.withDrive (f s.driveView).2)

def driveAct (f : DriveView K σ → DriveView K σ) (p : Program (Firmware K σ)) : Program (Firmware K σ) :=
  .step (onDrive fun d => ((), f d)) fun _ => p

end View

section Model

variable {K : Type*} [Field K] [LinearOrder K] [FloorRing K] {σ : Type} (dev : SpiDevice σ) (floatBits : K → UInt32)

/-- SPI1 as a part of the memory. -/
def spiAnswer : Device SpiRequest.Answer (Firmware K σ) := fun r =>
  onDrive fun d => ((dev.answer r d.pwm.port).1, d.setPort (dev.answer r d.pwm.port).2)

/-- `Mt6701GetAngle`, and what follows with its result. -/
def getAngleProgram (k : K → Program (Firmware K σ)) : Program (Firmware K σ) :=
  .call (spiAnswer dev) frameCall fun paths =>
    let angle := mt6701Angle paths.1.byte paths.2.1.byte paths.2.2.byte
    driveAct (DriveView.setAngle angle) (k angle)

def dma1Channel2Program : Program (Firmware K σ) :=
  .test (fun s => s.tx.channel.fdt2)
    (.act (fun s => { s with tx := { s.tx with usart3TxDmaStatus := 1 } }) <|
      .act (fun s => { s with tx := { s.tx with channel := { s.tx.channel with fdt2 := false } } }) <|
      .act (fun s =>
        { s with tx := { s.tx with channel := dmaChannelEnable s.tx.channel false, handled := s.tx.handled + 1 } })
      .done)
    .done

/-- `FocContorl` once the angle is read. -/
def drive (mechanicalAngle : K) (d : DriveView K σ) : DriveView K σ :=
  let (motor, globals) := driveAtAngle mechanicalAngle d.pwm.globals
  { d with pwm := { d.pwm with globals := globals }, motor := motor }

def dma1Channel3Program : Program (Firmware K σ) :=
  .test (fun s => s.fdt3)
    (.act (fun s => { s with fdt3 := false }) <|
      getAngleProgram dev fun mechanicalAngle => driveAct (drive mechanicalAngle) .done)
    .done

def tmr2GlobalProgram : Program (Firmware K σ) := .act (fun s => { s with ovf := false }) .done

def usart3Program : Program (Firmware K σ) := .done

def irqProgram : Irq → Program (Firmware K σ)
  | .dma1Channel2 => dma1Channel2Program
  | .dma1Channel3 => dma1Channel3Program dev
  | .tmr2Global => tmr2GlobalProgram
  | .usart3 => usart3Program

/-- One pass of the loop of `AngleInitZeroOffset`. -/
def sampleProgram (i : ℕ) : Program (Firmware K σ) :=
  getAngleProgram dev fun mechanicalAngle =>
    driveAct (fun d => { d with sum := d.sum + calculateElectricalAngle mechanicalAngle, pc := .sample (i + 1) }) .done

/-- The rest of it: the offset, the two lines for the console, and the end of the drag. -/
def offsetProgram : Program (Firmware K σ) :=
  getAngleProgram dev fun mechanicalAngle =>
    driveAct (fun d => { d with pwm := { d.pwm with globals := { d.pwm.globals with gZeroOffset := d.sum / (10 : ℕ) } } }) <|
    driveAct (fun d =>
      let corrected := angleGetCorrectedElec d.pwm.globals.gZeroOffset mechanicalAngle
      { d with console := d.console ++ [.zeroAngle d.pwm.globals.gZeroOffset corrected] }) <|
    driveAct (fun d => { d with console := d.console ++ [.initialised] }) <|
    driveAct (fun d => { d with pwm := { d.pwm with globals := motorApplyStrongDrag 0 d.pwm.globals }, pc := .enableTmr2 }) .done

/-- One step of `main`, its frames cut into their accesses. -/
def mainSteps (s : Firmware K σ) : Program (Firmware K σ) :=
  match s.pc with
  | .sample i => if i < 10 then sampleProgram dev i else .act (mainProgram dev floatBits) .done
  | .offset => offsetProgram dev
  | _ => .act (mainProgram dev floatBits) .done

/-- The interrupts with the levels and enables that the registers hold. -/
def firmwareVectors (nvic : Nvic) : Vectors (Firmware K σ) Irq where
  order := [.dma1Channel2, .dma1Channel3, .tmr2Global, .usart3]
  level i := (nvic.urgency (irqNumber i)).1
  sub i := (nvic.urgency (irqNumber i)).2
  pending s i := nvic.enabled (irqNumber i) && pendingIrq s i
  program := irqProgram dev
  main := mainSteps dev floatBits

end Model

section Registers

theorem irqNumber_range (i : Irq) : 0 ≤ irqNumber i ∧ irqNumber i < 240 := by
  cases i <;> decide

theorem irqNumber_ne {i j : Irq} (h : i ≠ j) : irqNumber i ≠ irqNumber j := by
  revert h
  cases i <;> cases j <;> decide

/-- Interrupts enabled at level zero stay so while others are enabled. -/
theorem irqEnable_zero (r : Nvic) (irqs : List Irq) {i : Irq} (hi : i ∈ irqs) :
    let r' := irqs.foldl (fun r j => nvicIrqEnable (irqNumber j) 0 0 r) r
    r'.urgency (irqNumber i) = (0, 0) ∧ r'.enabled (irqNumber i) = true := by
  induction irqs using List.reverseRecOn with
  | nil => exact absurd hi List.not_mem_nil
  | append_singleton irqs j ih =>
      rw [List.foldl_append, List.foldl_cons, List.foldl_nil]
      dsimp only
      rw [Nvic.enabled_irqEnable (irqNumber_range i) (irqNumber_range j)]
      by_cases heq : i = j
      · rw [heq, Nvic.urgency_irqEnable_same]
        simp
      · have hbefore : i ∈ irqs := (List.mem_append.mp hi).resolve_right fun h => heq (List.mem_singleton.mp h)
        rw [Nvic.urgency_irqEnable_of_ne (irqNumber_range i) (irqNumber_range j).2 (irqNumber_ne heq), (ih hbefore).2]
        exact ⟨(ih hbefore).1, Bool.or_true _⟩

/-- Whatever the registers held, all four interrupts are enabled, at level zero. -/
theorem wkNvicConfig_irq (nvic : Nvic) (i : Irq) :
    (wkNvicConfig nvic).urgency (irqNumber i) = (0, 0) ∧ (wkNvicConfig nvic).enabled (irqNumber i) = true := by
  have hcalls : ∃ r : Nvic, wkNvicConfig nvic = [Irq.dma1Channel2, .dma1Channel3, .tmr2Global, .usart3].foldl
      (fun r j => nvicIrqEnable (irqNumber j) 0 0 r) r := ⟨_, rfl⟩
  obtain ⟨r, hr⟩ := hcalls
  rw [hr]
  apply irqEnable_zero
  cases i <;> simp

end Registers

section Whole

variable {K : Type*} [Field K] [LinearOrder K] [FloorRing K] {σ : Type} (dev : SpiDevice σ) (floatBits : K → UInt32)

omit [Field K] [LinearOrder K] [FloorRing K] in
theorem exec_spiAnswer {α : Type} (c : SpiCall α) (s : Firmware K σ) :
    c.exec (spiAnswer dev) s =
      ((c.exec dev.answer s.pwm.port).1, { s with pwm := { s.pwm with port := (c.exec dev.answer s.pwm.port).2 } }) := by
  induction c generalizing s with
  | done a => rfl
  | ask r next ih => exact ih _ _

omit [LinearOrder K] [FloorRing K] in
theorem exec_getAngleProgram (k : K → Program (Firmware K σ)) (s : Firmware K σ) :
    (getAngleProgram dev k).exec s =
      let (mechanicalAngle, encoder, port) := mt6701GetAngle dev s.pwm.encoder s.pwm.port
      (k mechanicalAngle).exec { s with pwm := { s.pwm with encoder := encoder, port := port } } := by
  rw [getAngleProgram, Program.exec_call, exec_spiAnswer, dev.exec_frameCall, mt6701GetAngle_eq]
  rfl

/-- From start to end the programs are the handlers. -/
theorem exec_irqProgram (i : Irq) : (irqProgram dev i).exec = irqHandler (K := K) dev i := by
  funext s
  cases i with
  | dma1Channel2 =>
      rw [irqProgram, dma1Channel2Program, Program.exec_test, irqHandler, dma1Channel2IRQHandler]
      cases s.tx.channel.fdt2 <;> rfl
  | dma1Channel3 =>
      rw [irqProgram, dma1Channel3Program, Program.exec_test, irqHandler, dma1Channel3IRQHandler, Program.exec_act,
        exec_getAngleProgram]
      cases s.fdt3 <;> rfl
  | tmr2Global | usart3 => rfl

/-- And the steps of `main`. -/
theorem exec_mainSteps (s : Firmware K σ) : (mainSteps dev floatBits s).exec s = mainProgram dev floatBits s := by
  unfold mainSteps
  cases hpc : s.pc with
  | sample i =>
      dsimp only
      split_ifs with hlt
      · rw [sampleProgram, exec_getAngleProgram]
        simp only [mainProgram, hpc, if_pos hlt]
        rfl
      · rfl
  | offset =>
      rw [offsetProgram, exec_getAngleProgram]
      simp only [mainProgram, hpc]
      rfl
  | _ => rfl

theorem controller_eq (nvic : Nvic) :
    (firmwareVectors dev floatBits (wkNvicConfig nvic)).controller = firmware (K := K) dev floatBits := by
  have hpending : (firmwareVectors (K := K) dev floatBits (wkNvicConfig nvic)).pending = pendingIrq := by
    funext s i
    simp [firmwareVectors, (wkNvicConfig_irq nvic i).2]
  have hhandler :
      (fun i => ((firmwareVectors (K := K) dev floatBits (wkNvicConfig nvic)).program i).exec) = irqHandler dev := by
    funext i
    exact exec_irqProgram dev i
  have hmain : (fun s => ((firmwareVectors (K := K) dev floatBits (wkNvicConfig nvic)).main s).exec s) =
      mainProgram dev floatBits := by
    funext s
    exact exec_mainSteps dev floatBits s
  unfold Vectors.controller
  rw [hpending, hhandler, hmain]
  rfl

end Whole

section Channel

variable {K : Type*} {σ : Type}

/-- A flagged channel has sent everything. -/
def ChannelDone (s : Firmware K σ) : Prop := s.tx.channel.fdt2 = true → s.tx.channel.dtcnt = 0

variable {s : Firmware K σ}

theorem hardwareStep_transfer (h : s.tx.channel.dtcnt = 0) : hardwareStep .transfer s = s := by
  simp [hardwareStep, transfer, h]

theorem ChannelDone.hardware (h : ChannelDone s) (e : HardwareEvent) : ChannelDone (hardwareStep e s) := by
  cases e with
  | transfer =>
      intro hflag
      by_cases hrun : s.tx.channel.chen ∧ s.tx.channel.dtcnt ≠ 0
      · have hunflagged : s.tx.channel.fdt2 = false := by
          by_contra hset
          exact hrun.2 (h (Bool.eq_true_of_not_eq_false hset))
        simp only [hardwareStep, transfer, if_pos hrun, hunflagged, Bool.false_or, beq_iff_eq] at hflag ⊢
        rw [hflag]
      · simp only [hardwareStep, transfer, if_neg hrun] at hflag ⊢
        exact h hflag
  | conversion | overflow | idleLine => exact h

theorem mainStep_channel (size : UInt8) (data : ℕ → ℕ → UInt32) (t : TxState) :
    (mainStep size data t).channel.fdt2 = t.channel.fdt2 ∧ (mainStep size data t).channel.dtcnt = t.channel.dtcnt := by
  unfold mainStep
  split <;> (try split_ifs) <;> exact ⟨rfl, rfl⟩

end Channel

section Assertions

variable {K : Type*} [Field K] [LinearOrder K] [FloorRing K] {σ : Type} {dev : SpiDevice σ} {floatBits : K → UInt32}
  {nvic : Nvic} {s : Firmware K σ}

/-- What holds at every step: the drive's interrupt is enabled in the superloop only. -/
structure Sound (s : Firmware K σ) : Prop where
  channel : ChannelDone s
  gated : s.fdtInt3 = true → s.pc = .superloop

/-- What holds while `main` calibrates. -/
structure Calibrating (s : Firmware K σ) : Prop where
  channel : ChannelDone s
  disabled : s.fdtInt3 = false

omit [Field K] [LinearOrder K] [FloorRing K] in
theorem Calibrating.sound (h : Calibrating s) : Sound s := by
  refine ⟨h.channel, fun hint => ?_⟩
  rw [h.disabled] at hint
  cases hint

omit [Field K] [LinearOrder K] [FloorRing K] in
theorem hardwareStep_drive (e : HardwareEvent) (s : Firmware K σ) :
    (hardwareStep e s).fdtInt3 = s.fdtInt3 ∧ (hardwareStep e s).driveView = s.driveView := by
  cases e <;> exact ⟨rfl, rfl⟩

omit [Field K] [LinearOrder K] [FloorRing K] in
theorem sound_hardware : Stable (aroundHandler hardwareStep) (Sound : Firmware K σ → Prop) := by
  intro s e h _
  obtain ⟨hint, hdrive⟩ := hardwareStep_drive e s
  refine ⟨h.channel.hardware e, fun hset => ?_⟩
  exact (congrArg DriveView.pc hdrive).trans (h.gated (hint ▸ hset))

/-- The other handlers leave the drive's interrupt alone. -/
theorem channelDone_irqHandler {i : Irq} (hi : i ≠ .dma1Channel3) (h : ChannelDone s) :
    ChannelDone (irqHandler dev i s) ∧ (irqHandler dev i s).fdtInt3 = s.fdtInt3 := by
  cases i with
  | dma1Channel3 => exact absurd rfl hi
  | tmr2Global | usart3 => exact ⟨h, rfl⟩
  | dma1Channel2 =>
      refine ⟨?_, rfl⟩
      rw [irqHandler, dma1Channel2IRQHandler]
      split_ifs
      · intro hset
        cases hset
      · exact h

/-- Around a step of the calibration the drive's handler does not run. -/
theorem Calibrating.not_control (h : Calibrating s) {e : HardwareEvent ⊕ Irq}
    (hcan : (aroundMain (firmwareVectors dev floatBits nvic) hardwareStep).can s e) : e ≠ .inr .dma1Channel3 := by
  rintro rfl
  have hpending := hcan .dma1Channel3 rfl
  simp [firmwareVectors, pendingIrq, h.disabled] at hpending

theorem calibrating_stable :
    Stable (aroundMain (firmwareVectors dev floatBits nvic) hardwareStep) (Calibrating : Firmware K σ → Prop) := by
  rintro s (e | i) h hcan
  · exact ⟨h.channel.hardware e, (hardwareStep_drive e s).1.trans h.disabled⟩
  · have hi : i ≠ .dma1Channel3 := fun hi => h.not_control hcan (hi ▸ rfl)
    change Calibrating ((irqProgram dev i).exec s)
    rw [exec_irqProgram]
    have hkept : ChannelDone (irqHandler dev i s) ∧ (irqHandler dev i s).fdtInt3 = s.fdtInt3 :=
      channelDone_irqHandler hi h.channel
    exact ⟨hkept.1, hkept.2.trans h.disabled⟩

omit [LinearOrder K] [FloorRing K] [Field K] in
theorem pendingIrq_withDrive (s : Firmware K σ) (d : DriveView K σ) : pendingIrq (s.withDrive d) = pendingIrq s := by
  funext i
  cases i <;> rfl

theorem pending_withDrive (s : Firmware K σ) (d : DriveView K σ) :
    (firmwareVectors dev floatBits nvic).pending (s.withDrive d) = (firmwareVectors dev floatBits nvic).pending s := by
  funext i
  simp only [firmwareVectors, pendingIrq_withDrive]

/-- A step of the calibration that touches the drive only could as well come before or after any event. -/
theorem stepApart_main {A : Type} (f : DriveView K σ → A × DriveView K σ) :
    StepApart (aroundMain (firmwareVectors dev floatBits nvic) hardwareStep) Calibrating (onDrive f) := by
  refine ⟨fun s h => ⟨h.channel, h.disabled⟩, ?_, ?_, fun s h => ?_⟩
  · rintro s (e | i) h hcan
    · cases e <;> rfl
    · have hi : i ≠ .dma1Channel3 := fun hi => h.not_control hcan (hi ▸ rfl)
      change onDrive f ((irqProgram dev i).exec s) = (_, (irqProgram dev i).exec _)
      rw [exec_irqProgram]
      cases i with
      | dma1Channel3 => exact absurd rfl hi
      | dma1Channel2 | tmr2Global | usart3 => rfl
  · intro s e h hcan i hi
    have hpending := hcan i hi
    rw [← pending_withDrive] at hpending
    exact hpending
  · change (firmwareVectors dev floatBits nvic).next (s.withDrive _) = (firmwareVectors dev floatBits nvic).next s
    simp only [Vectors.next, pending_withDrive]

omit [Field K] [LinearOrder K] [FloorRing K] in
theorem stepApart_handler {A : Type} {f : DriveView K σ → A × DriveView K σ} (hf : ∀ d, (f d).2.pc = d.pc) :
    StepApart (aroundHandler hardwareStep) Sound (onDrive f) := by
  refine ⟨fun s h => ⟨h.channel, fun hint => (hf s.driveView).trans (h.gated hint)⟩, fun s e _ _ => ?_,
    fun _ _ _ h => h, fun _ _ => rfl⟩
  cases e <;> rfl

omit [LinearOrder K] [FloorRing K] in
theorem apart_getAngle {E T : Type*} {env : Surroundings (Firmware K σ) E T} {P : Firmware K σ → Prop}
    (hdrive : ∀ {A : Type} {f : DriveView K σ → A × DriveView K σ}, (∀ d, (f d).2.pc = d.pc) → StepApart env P (onDrive f))
    {k : K → Program (Firmware K σ)} (hk : ∀ angle, Apart env P (k angle)) : Apart env P (getAngleProgram dev k) :=
  .call (fun _ => hdrive fun _ => rfl) frameCall fun _ => .step (hdrive fun _ => rfl) fun _ => hk _

end Assertions

section Outlines

variable {K : Type*} [Field K] [LinearOrder K] [FloorRing K] {σ : Type} (dev : SpiDevice σ) (floatBits : K → UInt32)
  (nvic : Nvic)

/-- A handler is entered with its own flag set. -/
theorem flagged_of_pending {s : Firmware K σ} {i : Irq} (h : (firmwareVectors dev floatBits nvic).pending s i = true) :
    pendingIrq s i = true := (Bool.and_eq_true_iff.mp h).2

/-- The event that raises an interrupt. -/
def Irq.raisedBy : Irq → HardwareEvent
  | .dma1Channel2 => .transfer
  | .dma1Channel3 => .conversion
  | .tmr2Global => .overflow
  | .usart3 => .idleLine

omit [Field K] [LinearOrder K] [FloorRing K] in
/-- A pending interrupt is not raised once more: all bytes are sent, or the flag is set. -/
theorem hardwareStep_raisedBy {s : Firmware K σ} {i : Irq} (hs : Sound s) (h : pendingIrq s i = true) :
    hardwareStep i.raisedBy s = s := by
  cases i with
  | dma1Channel2 => exact hardwareStep_transfer (hs.channel (Bool.and_eq_true_iff.mp h).2)
  | dma1Channel3 | tmr2Global | usart3 =>
      have hflag := (Bool.and_eq_true_iff.mp h).2
      rw [Irq.raisedBy, hardwareStep, ← hflag]

omit [Field K] [LinearOrder K] [FloorRing K] in
theorem pendingIrq_other {i : Irq} {e : HardwareEvent} (he : e ≠ i.raisedBy) (s : Firmware K σ) :
    pendingIrq (hardwareStep e s) i = pendingIrq s i := by
  cases i <;> cases e <;> first | rfl | exact absurd rfl he

/-- The hardware does not take back what it has raised. -/
theorem stable_pending (i : Irq) : Stable (aroundHandler hardwareStep) fun s : Firmware K σ =>
    Sound s ∧ (firmwareVectors dev floatBits nvic).pending s i = true := by
  rintro s e h -
  refine ⟨sound_hardware s e h.1 trivial, ?_⟩
  change (firmwareVectors dev floatBits nvic).pending (hardwareStep e s) i = true
  by_cases he : e = i.raisedBy
  · rw [he, hardwareStep_raisedBy h.1 (flagged_of_pending dev floatBits nvic h.2)]
    exact h.2
  · simp only [firmwareVectors, pendingIrq_other he]
    exact h.2

/-- A handler and an event that does not raise its interrupt can change places. -/
theorem irqHandler_other {i : Irq} {e : HardwareEvent} (he : e ≠ i.raisedBy) {s : Firmware K σ} (h : pendingIrq s i = true) :
    irqHandler dev i (hardwareStep e s) = hardwareStep e (irqHandler dev i s) := by
  cases i with
  | dma1Channel3 =>
      have hserved : ∀ s : Firmware K σ, s.fdt3 = true → irqHandler dev .dma1Channel3 s =
          { s with
            fdt3 := false, pwm := (serveControl dev (s.pwm, s.motor)).1, motor := (serveControl dev (s.pwm, s.motor)).2 } := by
        intro s hflag
        rw [irqHandler, dma1Channel3IRQHandler, if_pos hflag]
      have hflag := (Bool.and_eq_true_iff.mp h).2
      rw [hserved s hflag]
      cases e with
      | conversion => exact absurd rfl he
      | transfer | overflow | idleLine => exact hserved (hardwareStep _ s) hflag
  | dma1Channel2 | tmr2Global | usart3 => cases e <;> first | rfl | exact absurd rfl he

/-- So at its start every event can be put off to the end of a handler, or left out. -/
theorem moves_irqProgram (i : Irq) : Moves (aroundHandler hardwareStep)
    (fun s : Firmware K σ => Sound s ∧ (firmwareVectors dev floatBits nvic).pending s i = true) (irqProgram dev i) := by
  refine fun s h => ⟨rfl, fun e _ => ?_⟩
  have hflag := flagged_of_pending dev floatBits nvic h.2
  change (irqProgram dev i).exec _ = hardwareStep e ((irqProgram dev i).exec s) ∨ _ = _
  rw [exec_irqProgram]
  by_cases he : e = i.raisedBy
  · exact .inr (congrArg _ (he ▸ hardwareStep_raisedBy h.1 hflag))
  · exact .inl (irqHandler_other dev he hflag)

omit [Field K] [LinearOrder K] [FloorRing K] in
/-- Once all bytes are sent there is nothing left to transfer. -/
theorem stable_sent : Stable (aroundHandler hardwareStep) fun s : Firmware K σ => Sound s ∧ s.tx.channel.dtcnt = 0 := by
  intro s e h _
  refine ⟨sound_hardware s e h.1 trivial, ?_⟩
  cases e with
  | transfer => exact (congrArg (·.tx.channel.dtcnt) (hardwareStep_transfer h.2)).trans h.2
  | conversion | overflow | idleLine => exact h.2

theorem outline_dma1Channel2 : Outline (aroundHandler hardwareStep) Sound
    (fun s : Firmware K σ => Sound s ∧ (firmwareVectors dev floatBits nvic).pending s .dma1Channel2 = true)
    dma1Channel2Program := by
  have hact : ∀ {f : Firmware K σ → Firmware K σ} {p : Program (Firmware K σ)},
      Moves (aroundHandler hardwareStep) (fun s : Firmware K σ => Sound s ∧ s.tx.channel.dtcnt = 0) (.act f p) →
      (∀ s, Sound s ∧ s.tx.channel.dtcnt = 0 → Sound (f s) ∧ (f s).tx.channel.dtcnt = 0) →
      Outline (aroundHandler hardwareStep) Sound (fun s => Sound s ∧ s.tx.channel.dtcnt = 0) p →
      Outline (aroundHandler hardwareStep) Sound (fun s => Sound s ∧ s.tx.channel.dtcnt = 0) (.act f p) :=
    fun hmoves hkeep hp => .act (fun _ h => h.1) stable_sent hmoves hkeep hp
  have hkeep : ∀ (s : Firmware K σ) (t : TxState), Sound s ∧ s.tx.channel.dtcnt = 0 → t.channel.dtcnt = 0 →
      Sound { s with tx := t } ∧ ({ s with tx := t } : Firmware K σ).tx.channel.dtcnt = 0 :=
    fun s t h ht => ⟨⟨fun _ => ht, h.1.gated⟩, ht⟩
  have hsent : ∀ s : Firmware K σ, Sound s ∧ (firmwareVectors dev floatBits nvic).pending s .dma1Channel2 = true →
      Sound s ∧ s.tx.channel.dtcnt = 0 := by
    rintro s ⟨hsound, hpending⟩
    exact ⟨hsound, hsound.channel (Bool.and_eq_true_iff.mp (flagged_of_pending dev floatBits nvic hpending)).2⟩
  refine .test (Q := fun s => Sound s ∧ s.tx.channel.dtcnt = 0) (R := Sound) (fun s h => h.1)
    (stable_pending dev floatBits nvic _) (moves_irqProgram dev floatBits nvic .dma1Channel2) (fun s h _ => hsent s h)
    (fun s h _ => h.1) ?_ (.done fun _ h => h)
  refine hact ?_ (fun s h => hkeep s _ h h.2) (hact ?_ (fun s h => hkeep s _ h h.2) (hact ?_ (fun s h => hkeep s _ h h.2)
    (.done fun _ h => h.1)))
  all_goals
    refine fun s h => ⟨rfl, fun e _ => ?_⟩
    cases e with
    | transfer => exact .inr (congrArg _ (hardwareStep_transfer h.2))
    | conversion | overflow | idleLine => exact .inl rfl

/-- Until the flag is cleared another conversion changes nothing; from then on it can as well come later. -/
theorem outline_dma1Channel3 : Outline (aroundHandler hardwareStep) Sound
    (fun s : Firmware K σ => Sound s ∧ (firmwareVectors dev floatBits nvic).pending s .dma1Channel3 = true)
    (dma1Channel3Program dev) := by
  have hserving : Apart (aroundHandler hardwareStep) (Sound : Firmware K σ → Prop)
      (getAngleProgram dev fun mechanicalAngle => driveAct (drive mechanicalAngle) .done) :=
    apart_getAngle stepApart_handler fun _ => .step (stepApart_handler fun _ => rfl) fun _ => .done
  have hagain : ∀ s : Firmware K σ, s.fdt3 = true → hardwareStep .conversion s = s := by
    intro s h
    rw [hardwareStep, ← h]
  refine .test (Q := fun s => Sound s ∧ s.fdt3 = true) (R := Sound) (fun s h => h.1)
    (stable_pending dev floatBits nvic _) (moves_irqProgram dev floatBits nvic .dma1Channel3) (fun s h hc => ⟨h.1, hc⟩)
    (fun s h _ => h.1)
    (.act (Q := Sound) (fun s h => h.1) ?_ ?_ (fun s h => ⟨h.1.channel, h.1.gated⟩)
      (hserving.outline (fun _ h => h) sound_hardware))
    (.done fun _ h => h)
  · rintro s e h -
    refine ⟨sound_hardware s e h.1 trivial, ?_⟩
    cases e with
    | conversion => rfl
    | transfer | overflow | idleLine => exact h.2
  · refine fun s h => ⟨rfl, fun e _ => ?_⟩
    by_cases he : e = .conversion
    · rw [he]
      exact .inr (congrArg _ (hagain s h.2))
    · -- the rest of the handler commutes with the event, and so does the clearing of another flag
      have hclears : ({ hardwareStep e s with fdt3 := false } : Firmware K σ) = hardwareStep e { s with fdt3 := false } := by
        cases e with
        | conversion => exact absurd rfl he
        | transfer | overflow | idleLine => rfl
      have hsound : Sound ({ s with fdt3 := false } : Firmware K σ) := ⟨h.1.channel, h.1.gated⟩
      have hrest := (hserving.moves _ hsound).2 e trivial
      rw [Program.exec_act, Program.exec_act]
      change Program.exec _ { hardwareStep e s with fdt3 := false } = _ ∨
        Program.exec _ { hardwareStep e s with fdt3 := false } = _
      rw [hclears]
      exact hrest

theorem outline_irqProgram (i : Irq) : Outline (aroundHandler hardwareStep) Sound
    (fun s : Firmware K σ => Sound s ∧ (firmwareVectors dev floatBits nvic).pending s i = true) (irqProgram dev i) := by
  cases i with
  | dma1Channel2 => exact outline_dma1Channel2 dev floatBits nvic
  | dma1Channel3 => exact outline_dma1Channel3 dev floatBits nvic
  | tmr2Global =>
      exact .act (Q := Sound) (fun s h => h.1) (stable_pending dev floatBits nvic _)
        (moves_irqProgram dev floatBits nvic .tmr2Global) (fun s h => ⟨h.1.channel, h.1.gated⟩) (.done fun _ h => h)
  | usart3 => exact .done fun s h => h.1

theorem mainProgram_sound {s : Firmware K σ} (h : Sound s) : Sound (mainProgram dev floatBits s) := by
  have hgated := h.gated
  refine ⟨?_, ?_⟩
  · have hchannel := h.channel
    unfold ChannelDone at hchannel ⊢
    unfold mainProgram
    cases s.pc with
    | superloop =>
        obtain ⟨hflag, hcount⟩ :=
          mainStep_channel 3 (fun _ => if s.tx.pc = .idle then tabcWords floatBits s.pwm.modulator else s.tabc) s.tx
        dsimp only
        rw [hflag, hcount]
        exact hchannel
    | sample i =>
        dsimp only
        split_ifs <;> exact hchannel
    | _ => exact hchannel
  · unfold mainProgram
    cases hpc : s.pc with
    | superloop => exact fun _ => rfl
    | enableDma3 => exact fun _ => rfl
    | sample i =>
        rw [hpc] at hgated
        dsimp only
        split_ifs <;> exact fun hint => absurd (hgated hint) (by simp)
    | _ =>
        rw [hpc] at hgated
        exact fun hint => absurd (hgated hint) (by simp)

/-- A program that `main` may begin: what its first step leaves is over, or has an outline and finds no interrupt pending. -/
def Begins (s : Firmware K σ) (p : Program (Firmware K σ)) : Prop :=
  ((p.advance s).1 = .done ∨ (firmwareVectors dev floatBits nvic).next (p.advance s).2 = none) ∧
    ∃ P : Firmware K σ → Prop, P (p.advance s).2 ∧
      Outline (aroundMain (firmwareVectors dev floatBits nvic) hardwareStep) Sound P (p.advance s).1

theorem begins_act {s : Firmware K σ} (h : Sound s) :
    Begins dev floatBits nvic s (.act (mainProgram dev floatBits) .done) :=
  ⟨.inl rfl, Sound, mainProgram_sound dev floatBits h, .done fun _ h => h⟩

theorem begins_apart {s : Firmware K σ} (h : Calibrating s) (hnext : (firmwareVectors dev floatBits nvic).next s = none)
    {p : Program (Firmware K σ)} (hp : Apart (aroundMain (firmwareVectors dev floatBits nvic) hardwareStep) Calibrating p) :
    Begins dev floatBits nvic s p := by
  cases hp with
  | done => exact ⟨.inl rfl, Sound, h.sound, .done fun _ h => h⟩
  | step hstep hrest =>
      refine ⟨.inr ((hstep.sees s h).trans hnext), Calibrating, hstep.keeps s h, ?_⟩
      exact (hrest _).outline (fun _ h => h.sound) calibrating_stable

/-- A frame that `main` reads, in the calibration. -/
theorem begins_frame {s : Firmware K σ} (h : Sound s) (hnext : (firmwareVectors dev floatBits nvic).next s = none)
    (hpc : s.pc ≠ .superloop) {k : K → Program (Firmware K σ)}
    (hk : ∀ angle, Apart (aroundMain (firmwareVectors dev floatBits nvic) hardwareStep) Calibrating (k angle)) :
    Begins dev floatBits nvic s (getAngleProgram dev k) := by
  have hdisabled : s.fdtInt3 = false := by
    cases hint : s.fdtInt3 with
    | false => rfl
    | true => exact absurd (h.gated hint) hpc
  apply begins_apart dev floatBits nvic ⟨h.channel, hdisabled⟩ hnext
  exact apart_getAngle (fun _ => stepApart_main _) hk

theorem begins_mainSteps {s : Firmware K σ} (h : Sound s) (hnext : (firmwareVectors dev floatBits nvic).next s = none) :
    Begins dev floatBits nvic s (mainSteps dev floatBits s) := by
  cases hpc : s.pc with
  | sample i =>
      have hbefore : s.pc ≠ .superloop := by simp [hpc]
      by_cases hlt : i < 10
      · simp only [mainSteps, hpc, if_pos hlt]
        exact begins_frame dev floatBits nvic h hnext hbefore fun _ => .step (stepApart_main _) fun _ => .done
      · simp only [mainSteps, hpc, if_neg hlt]
        exact begins_act dev floatBits nvic h
  | offset =>
      have hbefore : s.pc ≠ .superloop := by simp [hpc]
      simp only [mainSteps, hpc]
      apply begins_frame dev floatBits nvic h hnext hbefore
      exact fun _ => .step (stepApart_main _) fun _ => .step (stepApart_main _) fun _ => .step (stepApart_main _)
        fun _ => .step (stepApart_main _) fun _ => .done
  | _ =>
      simp only [mainSteps, hpc]
      exact begins_act dev floatBits nvic h

theorem firmware_reducible :
    Reducible (firmwareVectors (K := K) dev floatBits (wkNvicConfig nvic)) hardwareStep (Sound : Firmware K σ → Prop) := by
  have hzero : ∀ i, (wkNvicConfig nvic).urgency (irqNumber i) = (0, 0) := fun i => (wkNvicConfig_irq nvic i).1
  refine ⟨⟨?_, ?_⟩, sound_hardware, outline_irqProgram dev floatBits _, fun s h hnext => ?_⟩
  · intro i j
    simp [firmwareVectors, hzero]
  · intro i j
    simp [firmwareVectors, hzero]
  · exact begins_mainSteps dev floatBits _ h hnext

omit [LinearOrder K] [FloorRing K] in
theorem start_sound (encoder : Mt6701 K) (port : σ) (beyond : ℕ → UInt8) : Sound (Firmware.start encoder port beyond) := by
  refine ⟨fun h => ?_, fun h => ?_⟩ <;> cases h

end Outlines

/-- **Handlers and frames are as good as one step each.** Whatever the interrupt controller held before
`wk_nvic_config`, at most one handler runs at any moment; every run of the firmware with interrupts and hardware
between any two accesses of the handlers and of the calibration's frames is, once what is running has come to its
end, a run of the firmware with handlers and frames of one step on some of the same events; and every such run is
one of these. -/
theorem firmware_handlers_atomic {K : Type*} [Field K] [LinearOrder K] [FloorRing K] {σ : Type} (dev : SpiDevice σ)
    (floatBits : K → UInt32) (encoder : Mt6701 K) (port : σ) (beyond : ℕ → UInt8) (nvic : Nvic)
    (events : List (Event HardwareEvent)) :
    let fine :=
      run ((firmwareVectors dev floatBits (wkNvicConfig nvic)).step hardwareStep) ⟨.start encoder port beyond, .done, []⟩
    ((fine events).active.length ≤ 1 ∧ ∃ kept, kept.Sublist events ∧
        (fine events).completed = firmwareRun dev floatBits encoder port beyond kept) ∧
      ∃ longer, events.Sublist longer ∧ fine longer = ⟨firmwareRun dev floatBits encoder port beyond events, .done, []⟩ := by
  intro fine
  have hr := firmware_reducible dev floatBits nvic
  obtain ⟨hsteady, kept, hkept, hrun⟩ := hr.run_completed (start_sound encoder port beyond) events
  obtain ⟨longer, hlonger, hexpanded⟩ := hr.run_expanded (start_sound encoder port beyond) events
  rw [controller_eq] at hrun hexpanded
  exact ⟨⟨hsteady.length_le, kept, hkept, hrun⟩, longer, hlonger, hexpanded⟩

end FocFirmware
