import FocFirmware.FirmwareSystem

/-! Who runs when. `USART3_IRQHandler` is empty, so an idle line keeps its interrupt pending for ever and
`main` never takes another step, in whatever it was doing. The control step is served before it, and goes on. -/

namespace FocFirmware

open Interrupts Runs

section Model

variable {K : Type*} {σ : Type}

/-- What only `main` changes. -/
structure MainView (K : Type*) where
  pc : MainPc
  sum : K
  tabc : ℕ → UInt32
  console : List (ConsoleLine K)
  mem : ℕ → UInt8
  sendPc : SendPc
  calls : ℕ
  enabled : Bool × Bool × Bool × Bool

def mainView (s : Firmware K σ) : MainView K :=
  ⟨s.pc, s.sum, s.tabc, s.console, s.tx.mem, s.tx.pc, s.tx.calls, s.fdtInt2, s.idleInt, s.ovfInt, s.fdtInt3⟩

/-- The interrupts that are served before the idle line's. -/
def pendingBeforeIdle (s : Firmware K σ) : ℕ :=
  (pendingIrq s .dma1Channel2).toNat + (pendingIrq s .dma1Channel3).toNat + (pendingIrq s .tmr2Global).toNat

/-- Channel 2 can still complete once. -/
def completionLeft (s : Firmware K σ) : ℕ := (s.tx.channel.chen || s.tx.channel.fdt2).toNat

end Model

section Steps

variable {K : Type*} [Field K] [LinearOrder K] [FloorRing K] {σ : Type} {dev : SpiDevice σ} {floatBits : K → UInt32}
  {s : Firmware K σ}

theorem mainView_handler (s : Firmware K σ) (i : Irq) : mainView (irqHandler dev i s) = mainView s := by
  cases i with
  | dma1Channel2 =>
      rw [irqHandler, dma1Channel2IRQHandler]
      split_ifs <;> rfl
  | dma1Channel3 =>
      rw [irqHandler, dma1Channel3IRQHandler]
      split_ifs <;> rfl
  | tmr2Global | usart3 => rfl

/-- No handler clears the flag of the idle line. -/
theorem idle_handler (s : Firmware K σ) (i : Irq) (h : pendingIrq s .usart3 = true) :
    pendingIrq (irqHandler dev i s) .usart3 = true := by
  cases i with
  | dma1Channel3 =>
      rw [irqHandler, dma1Channel3IRQHandler]
      split_ifs <;> exact h
  | dma1Channel2 | tmr2Global | usart3 => exact h

theorem mem_order (i : Irq) : i ∈ (firmware dev floatBits).order := by
  cases i <;> simp [firmware]

theorem next_eq (s : Firmware K σ) : (firmware dev floatBits).next s =
    if pendingIrq s .dma1Channel2 then some .dma1Channel2 else if pendingIrq s .dma1Channel3 then some .dma1Channel3
    else if pendingIrq s .tmr2Global then some .tmr2Global else if pendingIrq s .usart3 then some .usart3 else none := by
  rw [Controller.next]
  simp only [firmware, List.find?_cons, List.find?_nil]
  cases pendingIrq s .dma1Channel2 <;> cases pendingIrq s .dma1Channel3 <;> cases pendingIrq s .tmr2Global <;>
    cases pendingIrq s .usart3 <;> rfl

/-- The other three handlers clear their own flag and touch no other. -/
theorem pending_handler {i : Irq} (h : pendingIrq s i = true) (hi : i ≠ .usart3) :
    pendingIrq (irqHandler dev i s) = Function.update (pendingIrq s) i false := by
  cases i with
  | usart3 => exact absurd rfl hi
  | tmr2Global =>
      funext j
      cases j <;> simp [irqHandler, tmr2GlobalIRQHandler, pendingIrq, Function.update]
  | dma1Channel3 =>
      have hflag : s.fdt3 = true := (Bool.and_eq_true_iff.mp h).2
      funext j
      cases j <;> simp [irqHandler, dma1Channel3IRQHandler, hflag, pendingIrq, Function.update]
  | dma1Channel2 =>
      have hflag : s.tx.channel.fdt2 = true := (Bool.and_eq_true_iff.mp h).2
      funext j
      cases j <;> simp [irqHandler, dma1Channel2IRQHandler, hflag, dmaChannelEnable, pendingIrq, Function.update]

theorem handler_lowers {i : Irq} (h : pendingIrq s .usart3 = false) (hnext : (firmware dev floatBits).next s = some i) :
    pendingIrq (irqHandler dev i s) .usart3 = false ∧ pendingBeforeIdle (irqHandler dev i s) < pendingBeforeIdle s := by
  have hpending : pendingIrq s i = true := Controller.pending_of_next hnext
  have hi : i ≠ .usart3 := by
    rintro rfl
    rw [hpending] at h
    cases h
  simp only [pendingBeforeIdle, pending_handler hpending hi]
  refine ⟨(Function.update_of_ne hi.symm _ _).trans h, ?_⟩
  cases i with
  | usart3 => exact absurd rfl hi
  | dma1Channel2 | dma1Channel3 | tmr2Global => simp [Function.update, hpending]

/-- Before the control step at most the completion of channel 2 is served. -/
theorem handler_before_control {i : Irq} (hnext : (firmware dev floatBits).next s = some i) (hi : i ≠ .dma1Channel3)
    (hcontrol : pendingIrq s .dma1Channel3 = true) :
    pendingIrq (irqHandler dev i s) .dma1Channel3 = true ∧ completionLeft (irqHandler dev i s) < completionLeft s := by
  have hpending : pendingIrq s i = true := Controller.pending_of_next hnext
  have hfirst : i = .dma1Channel2 := by
    rw [next_eq, if_pos hcontrol] at hnext
    split_ifs at hnext
    · exact (Option.some.inj hnext).symm
    · exact absurd (Option.some.inj hnext).symm hi
  subst hfirst
  have hflag : s.tx.channel.fdt2 = true := (Bool.and_eq_true_iff.mp hpending).2
  refine ⟨hcontrol, ?_⟩
  simp [completionLeft, irqHandler, dma1Channel2IRQHandler, hflag, dmaChannelEnable]

omit [Field K] [LinearOrder K] [FloorRing K] in
/-- The hardware never enables channel 2. -/
theorem completionLeft_hardware (s : Firmware K σ) (e : HardwareEvent) :
    completionLeft (hardwareStep e s) ≤ completionLeft s := by
  cases e with
  | transfer =>
      simp only [completionLeft, hardwareStep, transfer]
      split_ifs with hmoves
      · simp [hmoves.1]
      · exact le_rfl
  | conversion | overflow | idleLine => exact le_rfl

omit [Field K] [LinearOrder K] [FloorRing K] in
/-- The hardware clears no flag. -/
theorem pending_hardware {i : Irq} (e : HardwareEvent) (h : pendingIrq s i = true) :
    pendingIrq (hardwareStep e s) i = true := by
  cases e with
  | transfer =>
      cases i with
      | dma1Channel2 =>
          obtain ⟨hint, hflag⟩ := Bool.and_eq_true_iff.mp h
          simp only [pendingIrq, hardwareStep, transfer]
          split_ifs <;> simp [hint, hflag]
      | dma1Channel3 | tmr2Global | usart3 => exact h
  | conversion =>
      cases i with
      | dma1Channel3 => exact Bool.and_eq_true_iff.mpr ⟨(Bool.and_eq_true_iff.mp h).1, rfl⟩
      | dma1Channel2 | tmr2Global | usart3 => exact h
  | overflow =>
      cases i with
      | tmr2Global => exact Bool.and_eq_true_iff.mpr ⟨(Bool.and_eq_true_iff.mp h).1, rfl⟩
      | dma1Channel2 | dma1Channel3 | usart3 => exact h
  | idleLine =>
      cases i with
      | usart3 => exact Bool.and_eq_true_iff.mpr ⟨(Bool.and_eq_true_iff.mp h).1, rfl⟩
      | dma1Channel2 | dma1Channel3 | tmr2Global => exact h

omit [Field K] [LinearOrder K] [FloorRing K] in
theorem mainView_hardware (s : Firmware K σ) (e : HardwareEvent) : mainView (hardwareStep e s) = mainView s := by
  cases e <;> rfl

/-- While the idle line's interrupt is pending nothing of `main`'s changes. -/
theorem mainView_frozen (h : pendingIrq s .usart3 = true) (events : List (Event HardwareEvent)) :
    pendingIrq (run ((firmware dev floatBits).step hardwareStep) s events) .usart3 = true ∧
      mainView (run ((firmware dev floatBits).step hardwareStep) s events) = mainView s := by
  refine Controller.view_run_of_stuck (fun t => pendingIrq t .usart3 = true) mainView ?_ ?_ ?_ h events
  · exact fun t ht => ⟨.usart3, mem_order _, ht⟩
  · exact fun t i ht _ => ⟨idle_handler t i ht, mainView_handler t i⟩
  · exact fun t e ht => ⟨pending_hardware e ht, mainView_hardware t e⟩

/-- Nor does the drive, as long as `main` has not enabled its interrupt. -/
theorem drive_frozen (h : pendingIrq s .usart3 = true) (hoff : s.fdtInt3 = false) (events : List (Event HardwareEvent)) :
    (run ((firmware dev floatBits).step hardwareStep) s events).pwm = s.pwm ∧
      (run ((firmware dev floatBits).step hardwareStep) s events).motor = s.motor := by
  refine Prod.mk.inj (Controller.view_run_of_stuck (fun t => pendingIrq t .usart3 = true ∧ t.fdtInt3 = false)
    (fun t => (t.pwm, t.motor)) ?_ ?_ ?_ ⟨h, hoff⟩ events).2
  · exact fun t ht => ⟨.usart3, mem_order _, ht.1⟩
  · intro t i ht hpending
    have henabled : (irqHandler dev i t).fdtInt3 = t.fdtInt3 :=
      congrArg (fun view => view.enabled.2.2.2) (mainView_handler t i)
    refine ⟨⟨idle_handler t i ht.1, henabled.trans ht.2⟩, ?_⟩
    cases i with
    | dma1Channel3 =>
        have hcontrol : (t.fdtInt3 && t.fdt3) = true := hpending
        rw [ht.2] at hcontrol
        cases hcontrol
    | dma1Channel2 | tmr2Global | usart3 => rfl
  · intro t e ht
    have henabled : (hardwareStep e t).fdtInt3 = t.fdtInt3 :=
      congrArg (fun view => view.enabled.2.2.2) (mainView_hardware t e)
    refine ⟨⟨pending_hardware e ht.1, henabled.trans ht.2⟩, ?_⟩
    cases e <;> rfl

theorem main_reached (h : pendingIrq s .usart3 = false) :
    ∃ n ≤ pendingBeforeIdle s,
      (firmware dev floatBits).next (run ((firmware dev floatBits).step hardwareStep) s (List.replicate n .cpu)) = none := by
  refine Controller.reaches_main (fun t => pendingIrq t .usart3 = false) pendingBeforeIdle ?_ h
  exact fun t i ht hnext => handler_lowers ht hnext

theorem control_served (h : pendingIrq s .dma1Channel3 = true) (events : List (Event HardwareEvent))
    (hcount : 2 ≤ events.countP Event.isCpu) :
    ∃ first last, events = first ++ .cpu :: last ∧ first.countP Event.isCpu ≤ completionLeft s ∧
      (firmware dev floatBits).next (run ((firmware dev floatBits).step hardwareStep) s first) = some .dma1Channel3 := by
  have hone : completionLeft s ≤ 1 := Bool.toNat_le _
  have hpending : (firmware dev floatBits).pending s .dma1Channel3 = true := h
  refine Controller.served_within (mem_order _) completionLeft ?_ ?_ hpending events (by omega)
  · exact fun t i hnext hi ht => handler_before_control hnext hi ht
  · exact fun t e ht => ⟨pending_hardware (i := .dma1Channel3) e ht, completionLeft_hardware t e⟩

end Steps

/-- **Who runs.** From every state `main` can take another step exactly while the idle line's interrupt is not
pending; once it is, nothing that is `main`'s ever changes, and before the superloop neither does the drive. A
pending control step is served with at most one handler before it, in either case. -/
theorem main_runs_iff_no_idle_line {K : Type*} [Field K] [LinearOrder K] [FloorRing K] {σ : Type} (dev : SpiDevice σ)
    (floatBits : K → UInt32) (s : Firmware K σ) :
    let after := run ((firmware dev floatBits).step hardwareStep) s
    ((∃ events, (firmware dev floatBits).next (after events) = none) ↔ pendingIrq s .usart3 = false) ∧
      (pendingIrq s .usart3 = true → ∀ events, mainView (after events) = mainView s ∧
        (s.fdtInt3 = false → (after events).pwm = s.pwm ∧ (after events).motor = s.motor)) ∧
      (pendingIrq s .dma1Channel3 = true → ∀ events : List (Event HardwareEvent), 2 ≤ events.countP Event.isCpu →
        ∃ first last, events = first ++ .cpu :: last ∧ first.countP Event.isCpu ≤ 1 ∧
          (firmware dev floatBits).next (after first) = some .dma1Channel3) := by
  intro after
  refine ⟨⟨?_, fun h => ?_⟩, fun h events => ⟨(mainView_frozen h events).2, fun hoff => drive_frozen h hoff events⟩, ?_⟩
  · rintro ⟨events, hnone⟩
    by_contra hidle
    rw [Bool.not_eq_false] at hidle
    have hpending : (firmware dev floatBits).pending (after events) .usart3 = true := (mainView_frozen hidle events).1
    obtain ⟨i, hnext⟩ := Controller.exists_next (mem_order .usart3) hpending
    rw [hnone] at hnext
    cases hnext
  · obtain ⟨n, -, hnone⟩ := main_reached h
    exact ⟨_, hnone⟩
  · intro h events hcount
    obtain ⟨first, last, hsplit, hfirst, hnext⟩ := control_served h events hcount
    exact ⟨first, last, hsplit, hfirst.trans (Bool.toNat_le _), hnext⟩

end FocFirmware
