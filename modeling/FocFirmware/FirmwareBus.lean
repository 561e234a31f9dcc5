import FocFirmware.EncoderTrace
import FocFirmware.FirmwareNesting

/-! SPI1 under the whole firmware, access by access. The calibration and the control steps share it from `main` and
from an interrupt that may come between any two accesses, yet the accesses of every interleaving are whole frames, one
after the other, with at most the last one still on its way; and everything of that kind is the accesses of some
interleaving. -/

namespace FocFirmware

open Calls Interrupts Nesting Runs

section Frames

variable {K : Type*} [Field K] [LinearOrder K] [FloorRing K] {σ : Type} (dev : SpiDevice σ) (encoder : Mt6701 K) (port : σ)

theorem sampleAngles_port (n : ℕ) : (sampleAngles dev encoder port n).2.2 = dev.afterFrames port n := by
  induction n with
  | zero => rfl
  | succ n ih =>
      unfold sampleAngles
      simp only [mt6701GetAngle_eq, ih]
      rfl

theorem pwmCalibrated_port : (pwmCalibrated dev encoder port).port = dev.afterFrames port 11 := by
  have hport : (dev.readFrame (sampleAngles dev encoder port 10).2.2).2 = dev.afterFrames port 11 := by
    rw [sampleAngles_port]
    rfl
  exact hport

theorem controlled_port (n : ℕ) : (controlled dev encoder port n).1.port = dev.afterFrames port (11 + n) := by
  induction n with
  | zero => exact pwmCalibrated_port dev encoder port
  | succ n ih =>
      have hport : (serveControl dev (controlled dev encoder port n)).1.port =
          (dev.readFrame (controlled dev encoder port n).1.port).2 := rfl
      rw [controlled_succ, hport, ih]
      rfl

/-- With a frame as one step SPI1 is always between two frames, at most one for each conversion past the calibration. -/
theorem firmware_frames (floatBits : K → UInt32) (beyond : ℕ → UInt8) (events : List (Event HardwareEvent)) :
    ∃ n ≤ 11 + conversions events, (firmwareRun dev floatBits encoder port beyond events).pwm.port = dev.afterFrames port n := by
  have hdriven := (firmware_ordered dev floatBits encoder port beyond events).driven
  generalize firmwareRun dev floatBits encoder port beyond events = s at hdriven
  unfold DrivenInOrder at hdriven
  cases hpc : s.pc with
  | sample i =>
      rw [hpc] at hdriven
      refine ⟨i, by omega, ?_⟩
      rw [hdriven.2.1]
      exact sampleAngles_port dev encoder port i
  | offset =>
      rw [hpc] at hdriven
      refine ⟨10, by omega, ?_⟩
      rw [hdriven.1]
      exact sampleAngles_port dev encoder port 10
  | enableTmr2 | enableDma3 =>
      rw [hpc] at hdriven
      refine ⟨11, Nat.le_add_right _ _, ?_⟩
      rw [hdriven.1, pwmCalibrated_port]
  | superloop =>
      rw [hpc] at hdriven
      obtain ⟨hserved, hstate⟩ := hdriven
      refine ⟨11 + controlsServed dev floatBits encoder port beyond events, by omega, ?_⟩
      have hpwm : s.pwm = _ := congrArg Prod.fst hstate
      rw [hpwm]
      exact controlled_port dev encoder port _
  | enableDma2 | enableIdle | startDelay | drag =>
      rw [hpc] at hdriven
      refine ⟨0, Nat.zero_le _, ?_⟩
      rw [hdriven.1]
      rfl

end Frames

section Reachable

variable {K : Type*} [Field K] [LinearOrder K] [FloorRing K] {σ : Type} (dev : SpiDevice σ) (floatBits : K → UInt32)

/-- Nothing for an interrupt to do, and the conversions of the superloop will be served. -/
structure Quiet (s : Firmware K σ) : Prop where
  fdt2 : s.tx.channel.fdt2 = false
  fdt3 : s.fdt3 = false
  ovf : s.ovf = false
  idlef : s.idlef = false
  enabled : s.pc = .superloop → s.fdtInt3 = true

variable {s : Firmware K σ}

theorem Quiet.next (h : Quiet s) : (firmware dev floatBits).next s = none := by
  refine List.find?_eq_none.mpr fun i _ => ?_
  cases i with
  | dma1Channel2 => simp [firmware, pendingIrq, h.fdt2]
  | dma1Channel3 => simp [firmware, pendingIrq, h.fdt3]
  | tmr2Global => simp [firmware, pendingIrq, h.ovf]
  | usart3 => simp [firmware, pendingIrq, h.idlef]

/-- Up to the superloop, `main` raises no interrupt by itself. -/
theorem Quiet.main (h : Quiet s) (hpc : s.pc ≠ .superloop) : Quiet (mainProgram dev floatBits s) := by
  have hkept : ∀ t : Firmware K σ, t.tx = s.tx → t.fdt3 = s.fdt3 → t.ovf = s.ovf → t.idlef = s.idlef →
      (t.pc = .superloop → t.fdtInt3 = true) → Quiet t := by
    intro t htx hfdt3 hovf hidlef henabled
    exact ⟨htx ▸ h.fdt2, hfdt3 ▸ h.fdt3, hovf ▸ h.ovf, hidlef ▸ h.idlef, henabled⟩
  unfold mainProgram
  cases hs : s.pc with
  | superloop => exact absurd hs hpc
  | sample i =>
      dsimp only
      split_ifs
      · exact hkept _ rfl rfl rfl rfl (by simp)
      · exact hkept _ rfl rfl rfl rfl (by simp)
  | enableDma3 => exact hkept _ rfl rfl rfl rfl fun _ => rfl
  | _ => exact hkept _ rfl rfl rfl rfl (by simp)

variable (encoder : Mt6701 K) (port : σ) (beyond : ℕ → UInt8)

/-- Some run ends at `pc` in a quiet state, after `n` frames. -/
def ReachedAfter (pc : MainPc) (n : ℕ) : Prop :=
  ∃ events, Quiet (firmwareRun dev floatBits encoder port beyond events) ∧
    (firmwareRun dev floatBits encoder port beyond events).pc = pc ∧
    (firmwareRun dev floatBits encoder port beyond events).pwm.port = dev.afterFrames port n

variable {dev floatBits encoder port beyond} {pc pc' : MainPc} {m n : ℕ}

/-- One more step of `main`. -/
theorem ReachedAfter.main (h : ReachedAfter dev floatBits encoder port beyond pc m) (hpc : pc ≠ .superloop)
    (hnext : ∀ s : Firmware K σ, s.pc = pc → s.pwm.port = dev.afterFrames port m →
      (mainProgram dev floatBits s).pc = pc' ∧ (mainProgram dev floatBits s).pwm.port = dev.afterFrames port n) :
    ReachedAfter dev floatBits encoder port beyond pc' n := by
  obtain ⟨events, hquiet, hat, hport⟩ := h
  have hstep : firmwareRun dev floatBits encoder port beyond (events ++ [.cpu]) =
      mainProgram dev floatBits (firmwareRun dev floatBits encoder port beyond events) := by
    rw [firmwareRun, run_concat]
    exact Controller.cpuStep_of_none (hquiet.next dev floatBits)
  refine ⟨events ++ [.cpu], ?_, ?_⟩
  · rw [hstep]
    apply hquiet.main
    rwa [hat]
  · rw [hstep]
    exact hnext _ hat hport

theorem reachedAfter_sample (hn : n ≤ 10) : ReachedAfter dev floatBits encoder port beyond (.sample n) n := by
  induction n with
  | zero =>
      have hpc : (firmwareRun dev floatBits encoder port beyond (List.replicate 4 .cpu)).pc = .sample 0 := rfl
      refine ⟨_, ⟨rfl, rfl, rfl, rfl, ?_⟩, hpc, rfl⟩
      rw [hpc]
      intro hloop
      cases hloop
  | succ n ih =>
      apply (ih (Nat.le_of_succ_le hn)).main (by simp)
      intro s hpc hport
      have hlt : n < 10 := hn
      simp only [mainProgram, hpc, if_pos hlt, mt6701GetAngle_eq, hport, true_and]
      rfl

theorem reachedAfter_superloop : ReachedAfter dev floatBits encoder port beyond .superloop 11 := by
  have hoffset : ReachedAfter dev floatBits encoder port beyond .offset 10 := by
    apply (reachedAfter_sample le_rfl).main (by simp)
    intro s hpc hport
    simp only [mainProgram, hpc, if_neg (lt_irrefl 10), true_and]
    exact hport
  have henable : ReachedAfter dev floatBits encoder port beyond .enableTmr2 11 := by
    apply hoffset.main (by simp)
    intro s hpc hport
    simp only [mainProgram, hpc, mt6701GetAngle_eq, hport, true_and]
    rfl
  have hgate : ReachedAfter dev floatBits encoder port beyond .enableDma3 11 := by
    apply henable.main (by simp)
    intro s hpc hport
    simp only [mainProgram, hpc, true_and]
    exact hport
  apply hgate.main (by simp)
  intro s hpc hport
  simp only [mainProgram, hpc, true_and]
  exact hport

/-- The processor serves one conversion, and nothing else. -/
theorem ReachedAfter.conversion (h : ReachedAfter dev floatBits encoder port beyond .superloop n) :
    ReachedAfter dev floatBits encoder port beyond .superloop (n + 1) := by
  obtain ⟨events, hquiet, hat, hport⟩ := h
  generalize hs : firmwareRun dev floatBits encoder port beyond events = s at hquiet hat hport
  have hnext : (firmware dev floatBits).next { s with fdt3 := true } = some .dma1Channel3 := by
    simp [Controller.next, firmware, pendingIrq, hquiet.fdt2, hquiet.enabled hat]
  have hrun : firmwareRun dev floatBits encoder port beyond (events ++ [.hardware .conversion] ++ [.cpu]) =
      dma1Channel3IRQHandler dev { s with fdt3 := true } := by
    unfold firmwareRun at hs ⊢
    rw [run_concat, run_concat, hs]
    exact Controller.cpuStep_of_next hnext
  refine ⟨events ++ [.hardware .conversion] ++ [.cpu], ?_, ?_⟩
  · rw [hrun]
    exact ⟨hquiet.fdt2, rfl, hquiet.ovf, hquiet.idlef, hquiet.enabled⟩
  · rw [hrun, SpiDevice.afterFrames, ← hport]
    exact ⟨hat, rfl⟩

variable (dev floatBits encoder port beyond)

theorem exists_reachedAfter (n : ℕ) : ∃ pc, ReachedAfter dev floatBits encoder port beyond pc n := by
  rcases Nat.lt_or_ge n 11 with hn | hn
  · exact ⟨_, reachedAfter_sample (Nat.le_of_lt_succ hn)⟩
  · refine ⟨.superloop, ?_⟩
    induction n, hn using Nat.le_induction with
    | base => exact reachedAfter_superloop
    | succ n _ ih => exact ih.conversion

end Reachable

section Over

variable {K : Type*} {σ τ : Type}

/-- The firmware with another view of its port. -/
def Firmware.mapPort (f : σ → τ) (s : Firmware K σ) : Firmware K τ :=
  { s with pwm := { s.pwm with port := f s.pwm.port } }

variable [Field K] [LinearOrder K] [FloorRing K] {fine : SpiDevice τ} {dev : SpiDevice σ} {f : τ → σ}
  (h : Over fine.answer dev.answer f) (floatBits : K → UInt32)

include h

omit [Field K] [LinearOrder K] [FloorRing K] in
theorem spiAnswer_over : Over (spiAnswer (K := K) fine) (spiAnswer dev) (Firmware.mapPort f) := by
  intro r s
  have hport : (s.mapPort f).driveView.pwm.port = f s.pwm.port := rfl
  simp only [spiAnswer, onDrive, hport, h r s.pwm.port]
  rfl

omit [LinearOrder K] [FloorRing K] in
theorem getAngleProgram_over {k : K → Program (Firmware K τ)} {k' : K → Program (Firmware K σ)}
    (hk : ∀ angle, (k angle).Seen (Firmware.mapPort f) (k' angle)) :
    (getAngleProgram fine k).Seen (Firmware.mapPort f) (getAngleProgram dev k') :=
  .call (spiAnswer_over h) frameCall fun _ => .step (fun _ => rfl) fun _ => hk _

omit [LinearOrder K] [FloorRing K] in
theorem mt6701GetAngle_over (encoder : Mt6701 K) (port : τ) :
    mt6701GetAngle dev encoder (f port) = ((mt6701GetAngle fine encoder port).1, (mt6701GetAngle fine encoder port).2.1,
      f (mt6701GetAngle fine encoder port).2.2) := by
  have hread : dev.readFrame (f port) = ((fine.readFrame port).1, f (fine.readFrame port).2) := by
    rw [← SpiDevice.exec_frameCall, ← SpiDevice.exec_frameCall]
    exact h.exec frameCall port
  simp only [mt6701GetAngle_eq, SpiDevice.frameBytes, hread]

theorem mainProgram_over (s : Firmware K τ) :
    mainProgram dev floatBits (s.mapPort f) = (mainProgram fine floatBits s).mapPort f := by
  have hangle := mt6701GetAngle_over h s.pwm.encoder s.pwm.port
  have hpc : (s.mapPort f).pc = s.pc := rfl
  have hencoder : (s.mapPort f).pwm.encoder = s.pwm.encoder := rfl
  have hport : (s.mapPort f).pwm.port = f s.pwm.port := rfl
  unfold mainProgram
  rw [hpc]
  cases s.pc with
  | sample i =>
      simp only [hencoder, hport, hangle]
      split_ifs <;> rfl
  | offset =>
      simp only [hencoder, hport, hangle]
      rfl
  | _ => rfl

theorem irqProgram_over (i : Irq) : (irqProgram (K := K) fine i).Seen (Firmware.mapPort f) (irqProgram dev i) := by
  cases i with
  | dma1Channel2 =>
      exact .test (fun _ => rfl) (.act (fun _ => rfl) (.act (fun _ => rfl) (.act (fun _ => rfl) .done))) .done
  | dma1Channel3 =>
      refine .test (fun _ => rfl) (.act (fun _ => rfl) ?_) .done
      exact getAngleProgram_over h fun _ => .step (fun _ => rfl) fun _ => .done
  | tmr2Global => exact .act (fun _ => rfl) .done
  | usart3 => exact .done

theorem mainSteps_over (s : Firmware K τ) :
    (mainSteps fine floatBits s).Seen (Firmware.mapPort f) (mainSteps dev floatBits (s.mapPort f)) := by
  have hpc : (s.mapPort f).pc = s.pc := rfl
  unfold mainSteps
  rw [hpc]
  cases s.pc with
  | sample i =>
      dsimp only
      split_ifs
      · exact getAngleProgram_over h fun _ => .step (fun _ => rfl) fun _ => .done
      · exact .act (mainProgram_over h floatBits) .done
  | offset =>
      exact getAngleProgram_over h fun _ => .step (fun _ => rfl) fun _ => .step (fun _ => rfl) fun _ =>
        .step (fun _ => rfl) fun _ => .step (fun _ => rfl) fun _ => .done
  | _ => exact .act (mainProgram_over h floatBits) .done

/-- **More behind the port.** Seen through `f`, the firmware with the finer device is the firmware. -/
theorem firmwareVectors_over (nvic : Nvic) :
    Vectors.Seen (Firmware.mapPort f) (firmwareVectors (K := K) fine floatBits nvic) (firmwareVectors dev floatBits nvic) := by
  refine ⟨rfl, rfl, rfl, fun s => ?_, irqProgram_over h, mainSteps_over h floatBits⟩
  funext i
  cases i <;> rfl

end Over

section Log

variable {K : Type*} {σ : Type}

/-- What the firmware has written down of SPI1. -/
def Firmware.accesses (s : Firmware K (σ × List SpiAccess)) : List SpiAccess := s.pwm.port.2

/-- One access at most is written down. -/
def WritesOne (s t : Firmware K (σ × List SpiAccess)) : Prop :=
  t.accesses = s.accesses ∨ ∃ a, t.accesses = s.accesses ++ [a]

theorem WritesOne.refl (s : Firmware K (σ × List SpiAccess)) : WritesOne s s := .inl rfl

theorem WritesOne.isPrefix {s t : Firmware K (σ × List SpiAccess)} (h : WritesOne s t) : s.accesses <+: t.accesses := by
  rcases h with h | ⟨a, h⟩
  · rw [h]
  · rw [h]
    exact List.prefix_append _ _

theorem writesOne_spiAnswer (dev : SpiDevice σ) (r : SpiRequest) (s : Firmware K (σ × List SpiAccess)) :
    WritesOne s (spiAnswer dev.logged r s).2 := by
  cases r <;> exact .inr ⟨_, rfl⟩

theorem writesOne_hardware (e : HardwareEvent) (s : Firmware K (σ × List SpiAccess)) : WritesOne s (hardwareStep e s) := by
  cases e <;> exact .inl rfl

variable [Field K] [LinearOrder K] [FloorRing K] (dev : SpiDevice σ) (floatBits : K → UInt32)

omit [LinearOrder K] [FloorRing K] in
theorem keeps_getAngle {k : K → Program (Firmware K (σ × List SpiAccess))} (hk : ∀ angle, (k angle).Keeps WritesOne) :
    (getAngleProgram dev.logged k).Keeps WritesOne :=
  .call (writesOne_spiAnswer dev) frameCall fun _ => .step (fun _ => .inl rfl) fun _ => hk _

theorem keeps_irqProgram (i : Irq) : (irqProgram (K := K) dev.logged i).Keeps WritesOne := by
  cases i with
  | dma1Channel2 =>
      exact .test .refl (.act (fun _ => .inl rfl) (.act (fun _ => .inl rfl) (.act (fun _ => .inl rfl) .done))) .done
  | dma1Channel3 =>
      refine .test .refl (.act (fun _ => .inl rfl) ?_) .done
      exact keeps_getAngle dev fun _ => .step (fun _ => .inl rfl) fun _ => .done
  | tmr2Global => exact .act (fun _ => .inl rfl) .done
  | usart3 => exact .done

/-- Outside its frames `main` leaves SPI1 alone. -/
theorem keeps_mainSteps (s : Firmware K (σ × List SpiAccess)) :
    ((mainSteps dev.logged floatBits s).advance s).1.Keeps WritesOne ∧
      WritesOne s ((mainSteps dev.logged floatBits s).advance s).2 := by
  have hquiet : (mainProgram dev.logged floatBits s).accesses = s.accesses →
      ((Program.act (mainProgram dev.logged floatBits) .done).advance s).1.Keeps WritesOne ∧
        WritesOne s ((Program.act (mainProgram dev.logged floatBits) .done).advance s).2 := fun h => ⟨.done, .inl h⟩
  unfold mainSteps
  cases hpc : s.pc with
  | sample i =>
      dsimp only
      split_ifs with hlt
      · refine Program.Keeps.advance .refl ?_ s
        exact keeps_getAngle dev fun _ => .step (fun _ => .inl rfl) fun _ => .done
      · apply hquiet
        simp only [mainProgram, hpc, if_neg hlt]
        rfl
  | offset =>
      refine Program.Keeps.advance .refl ?_ s
      exact keeps_getAngle dev fun _ => .step (fun _ => .inl rfl) fun _ => .step (fun _ => .inl rfl) fun _ =>
        .step (fun _ => .inl rfl) fun _ => .step (fun _ => .inl rfl) fun _ => .done
  | _ =>
      apply hquiet
      simp only [mainProgram, hpc]
      rfl

end Log

section Runs

variable {K : Type*} [Field K] [LinearOrder K] [FloorRing K] {σ : Type} (dev : SpiDevice σ) (floatBits : K → UInt32)
  (encoder : Mt6701 K) (port : σ) (beyond : ℕ → UInt8) (nvic : Nvic) (events : List (Event HardwareEvent))

/-- The firmware, one access at a time, from the start. -/
def fineRun : Machine (Firmware K σ) Irq :=
  run ((firmwareVectors dev floatBits (wkNvicConfig nvic)).step hardwareStep) ⟨.start encoder port beyond, .done, []⟩ events

/-- The same with the accesses written down. -/
def busRun : Machine (Firmware K (σ × List SpiAccess)) Irq :=
  fineRun dev.logged floatBits encoder (port, []) beyond nvic events

theorem busRun_seen : Machine.Seen (Firmware.mapPort Prod.fst) (busRun dev floatBits encoder port beyond nvic events)
    (fineRun dev floatBits encoder port beyond nvic events) := by
  have hover : Over dev.logged.answer dev.answer Prod.fst := dev.answer_logged ▸ logged_over dev.answer
  refine (firmwareVectors_over hover floatBits (wkNvicConfig nvic)).run (fun e s => ?_) _ events
  cases e <;> rfl

theorem keeps_event {m : Machine (Firmware K (σ × List SpiAccess)) Irq} (h : m.Keeps WritesOne) (e : Event HardwareEvent) :
    ((firmwareVectors dev.logged floatBits (wkNvicConfig nvic)).step hardwareStep m e).Keeps WritesOne ∧
      WritesOne m.mem ((firmwareVectors dev.logged floatBits (wkNvicConfig nvic)).step hardwareStep m e).mem :=
  h.event .refl (keeps_mainSteps dev floatBits) (keeps_irqProgram dev) writesOne_hardware e

theorem keeps_busRun : (busRun dev floatBits encoder port beyond nvic events).Keeps WritesOne :=
  run_invariant (Machine.Keeps WritesOne) (fun _ e h => (keeps_event dev floatBits nvic h e).1) ⟨.done, by simp⟩ events

/-- Once what is running is through, the accesses are whole frames; so far they are the first of these. -/
theorem busRun_frames : ∃ frames whole, frames.length ≤ 11 + conversions events ∧ SessionTrace frames whole ∧
    (busRun dev floatBits encoder port beyond nvic events).mem.accesses <+: whole := by
  obtain ⟨-, kept, hkept, hcompleted⟩ :=
    (firmware_reducible dev.logged floatBits nvic).run_completed (start_sound encoder (port, []) beyond) events
  rw [controller_eq] at hcompleted
  obtain ⟨n, hn, hport⟩ := firmware_frames dev.logged encoder (port, []) floatBits beyond kept
  obtain ⟨frames, whole, hwhole, hlength, hafter⟩ := dev.afterFrames_logged port n
  have hfewer : conversions kept ≤ conversions events := hkept.countP_le
  have hlog : (busRun dev floatBits encoder port beyond nvic events).completed.accesses = whole := by
    apply (congrArg Firmware.accesses hcompleted).trans
    exact congrArg Prod.snd (hport.trans hafter)
  refine ⟨frames, whole, by omega, hwhole, ?_⟩
  rw [← hlog]
  exact (keeps_busRun dev floatBits encoder port beyond nvic events).completed
    (R := fun s t : Firmware K (σ × List SpiAccess) => s.accesses <+: t.accesses) (fun _ => List.prefix_rfl)
    (fun _ _ _ hst htu => hst.isPrefix.trans htu) (fun _ _ _ hst htu => hst.trans htu)

end Runs

/-- **The language of the bus.** Whatever interrupts and hardware come between any two accesses, the accesses to SPI1
are whole frames of the driver, one after the other, the last one perhaps still on its way, and no more than one frame
for each conversion past the eleven of the calibration; writing them down changes nothing else. Every sequence of whole
frames, and every beginning of one, is what some sensor and some interleaving give. -/
theorem firmware_bus_language {K : Type*} [Field K] [LinearOrder K] [FloorRing K] (floatBits : K → UInt32)
    (encoder : Mt6701 K) (beyond : ℕ → UInt8) (nvic : Nvic) :
    (∀ (σ : Type) (dev : SpiDevice σ) (port : σ) (events : List (Event HardwareEvent)),
      Machine.Seen (Firmware.mapPort Prod.fst) (busRun dev floatBits encoder port beyond nvic events)
        (fineRun dev floatBits encoder port beyond nvic events) ∧
      ∃ frames whole, frames.length ≤ 11 + conversions events ∧ SessionTrace frames whole ∧
        (busRun dev floatBits encoder port beyond nvic events).mem.accesses <+: whole) ∧
    ∀ frames whole, SessionTrace frames whole → ∀ log, log <+: whole →
      ∃ (σ : Type) (dev : SpiDevice σ) (port : σ) (events : List (Event HardwareEvent)),
        (busRun dev floatBits encoder port beyond nvic events).mem.accesses = log := by
  refine ⟨fun σ dev port events => ⟨busRun_seen dev floatBits encoder port beyond nvic events, ?_⟩, ?_⟩
  · exact busRun_frames dev floatBits encoder port beyond nvic events
  · intro frames whole hwhole log hlog
    obtain ⟨pc, events, -, -, hport⟩ := exists_reachedAfter replayDevice.logged floatBits encoder (whole ++ [], []) beyond
      frames.length
    obtain ⟨longer, -, hexpanded⟩ := (firmware_reducible replayDevice.logged floatBits nvic).run_expanded
      (start_sound encoder (whole ++ [], []) beyond) events
    rw [controller_eq] at hexpanded
    have hend : (busRun replayDevice floatBits encoder (whole ++ []) beyond nvic longer).mem.accesses = whole := by
      apply (congrArg (fun m => m.mem.accesses) hexpanded).trans
      rw [SpiDevice.afterFrames_replay hwhole] at hport
      exact congrArg Prod.snd hport
    rw [← hend] at hlog
    obtain ⟨first, -, hfirst⟩ := exists_written (fun m => m.mem.accesses) (Machine.Keeps WritesOne)
      (fun _ e h => keeps_event replayDevice floatBits nvic h e) ⟨.done, by simp⟩ rfl longer hlog
    exact ⟨_, replayDevice, whole ++ [], first, hfirst⟩

end FocFirmware
