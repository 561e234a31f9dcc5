import FocFirmware.FirmwareSystem

/-! What the firmware tells the outside over USART3. `FocContorl` no longer runs the modulator whose times `main`
sends, so every array that DMA1 channel 2 sends is zero, and neither these bytes nor the order in which anything runs
depends on the encoder. The two lines that the calibration prints do. -/

namespace FocFirmware

open Interrupts Runs

section Wire

variable {data : ℕ → ℕ → UInt32} {beyond : ℕ → UInt8} {s : TxState}

/-- Byte `k` of the memory is zero or the byte of some call's frame, and past the buffer what was there. -/
def CallByte (data : ℕ → ℕ → UInt32) (beyond : ℕ → UInt8) (k : ℕ) (byte : UInt8) : Prop :=
  if k < 16 then byte = 0 ∨ ∃ call, byte = (frame (data call) 3).getD k 0 else byte = beyond k

/-- What the channel has sent, and what it could still send. -/
structure BytesOfCalls (data : ℕ → ℕ → UInt32) (beyond : ℕ → UInt8) (s : TxState) : Prop where
  counter_le : ∀ i, s.pc = .copy i → i.toNat ≤ 12
  mem : ∀ k, CallByte data beyond k (s.mem k)
  counted : s.channel.dtcnt + s.channel.next = 64
  sent : s.channel.wire.length = s.channel.next
  wire : ∀ k byte, s.channel.wire[k]? = some byte → CallByte data beyond k byte

theorem BytesOfCalls.hardware (h : BytesOfCalls data beyond s) :
    BytesOfCalls data beyond { s with channel := transfer s.mem s.channel } := by
  have hcount := h.counted
  by_cases hmoves : s.channel.chen = true ∧ s.channel.dtcnt ≠ 0
  · refine ⟨h.counter_le, h.mem, ?_, ?_, ?_⟩ <;> simp only [transfer, if_pos hmoves]
    · omega
    · rw [List.length_append, h.sent, List.length_singleton]
    · intro k byte hbyte
      rw [List.getElem?_append] at hbyte
      split_ifs at hbyte with hlt
      · exact h.wire k byte hbyte
      · obtain ⟨hzero, rfl⟩ : k - s.channel.wire.length = 0 ∧ s.mem s.channel.next = byte := by
          simpa [List.getElem?_singleton] using hbyte
        have hk : k = s.channel.next := by
          have hsent := h.sent
          omega
        rw [hk]
        exact h.mem _
  · simp only [transfer, if_neg hmoves]
    exact h

theorem BytesOfCalls.irq (h : BytesOfCalls data beyond s) : BytesOfCalls data beyond (dma1Channel2IRQHandler s) := by
  rw [dma1Channel2IRQHandler]
  split_ifs
  · exact ⟨h.counter_le, h.mem, h.counted, h.sent, h.wire⟩
  · exact h

/-- A byte of the current frame, written at its place. -/
theorem BytesOfCalls.mem_update (h : BytesOfCalls data beyond s) {w : ℕ} {byte : UInt8} (call : ℕ) (hw : w < 16)
    (hbyte : byte = (frame (data call) 3).getD w 0) : ∀ k, CallByte data beyond k (Function.update s.mem w byte k) := by
  intro k
  by_cases heq : k = w
  · rw [heq, Function.update_self, CallByte, if_pos hw]
    exact .inr ⟨call, hbyte⟩
  · rw [Function.update_of_ne heq]
    exact h.mem k

theorem BytesOfCalls.main (h : BytesOfCalls data beyond s) : BytesOfCalls data beyond (mainStep 3 data s) := by
  cases hpc : s.pc with
  | idle =>
      simp only [mainStep, hpc]
      refine { h with counter_le := ?_ }
      rintro i ⟨⟩
      decide
  | copy i =>
      simp only [mainStep, hpc]
      split_ifs with hlt
      · have hi : i.toNat < 3 * 4 := hlt
        refine { h with counter_le := ?_, mem := h.mem_update s.calls (by omega) (frame_getD_data _ hi).symm }
        rintro j ⟨⟩
        rw [counter_succ hi (by decide)]
        exact hi
      · exact { h with counter_le := fun j hj => by cases hj }
  | tail k =>
      simp only [mainStep, hpc]
      have hk : 3 * 4 + k.val < 16 := by omega
      refine { h with counter_le := fun j hj => ?_, mem := h.mem_update 0 hk (frame_getD_tail _ 3 k).symm }
      split_ifs at hj
  | wait =>
      simp only [mainStep, hpc]
      split_ifs
      · exact h
      · exact { h with counter_le := fun j hj => by cases hj }
  | enable =>
      simp only [mainStep, hpc]
      exact ⟨fun j hj => (by cases hj), h.mem, h.counted, h.sent, h.wire⟩

theorem bytesOfCalls_step (h : BytesOfCalls data beyond s) (e : TxEvent Unit) :
    BytesOfCalls data beyond (wireStep data s e) := by
  cases e with
  | main => exact h.main
  | irq => exact h.irq
  | hardware u => exact h.hardware

theorem bytesOfCalls_start : BytesOfCalls data beyond (wireStart beyond) := by
  refine ⟨?_, fun k => ?_, rfl, rfl, ?_⟩
  · rintro i ⟨⟩
  · rw [CallByte]
    split_ifs with hk
    · exact .inl (if_pos hk)
    · exact if_neg hk
  · rintro k byte ⟨⟩

end Wire

section Firmware

variable {K : Type*} [Field K] [LinearOrder K] [FloorRing K] {σ : Type} {dev : SpiDevice σ} {floatBits : K → UInt32}
  {encoder : Mt6701 K} {port : σ} {beyond : ℕ → UInt8} {s : Firmware K σ}

/-- The telemetry is a run of its own with arrays of zeros. -/
structure Silent (beyond : ℕ → UInt8) (s : Firmware K σ) : Prop where
  modulator : s.pwm.modulator = tpSvpwm
  tabc : s.tabc = fun _ => 0
  wire_run : ∃ events, s.tx = run (wireStep fun _ _ => 0) (wireStart beyond) events

omit [LinearOrder K] [FloorRing K] in
theorem tabcWords_tpSvpwm (hzero : floatBits 0 = 0) : tabcWords floatBits (tpSvpwm : SvpwmState K) = fun _ => 0 := by
  funext i
  rcases i with _ | _ | i <;> exact hzero

/-- One more event of the telemetry. -/
theorem wire_run_concat {tx : TxState} (h : ∃ events, tx = run (wireStep fun _ _ => 0) (wireStart beyond) events)
    (e : TxEvent Unit) :
    ∃ events, wireStep (fun _ _ => 0) tx e = run (wireStep fun _ _ => 0) (wireStart beyond) events := by
  obtain ⟨events, rfl⟩ := h
  exact ⟨events ++ [e], (run_concat _ _ _).symm⟩

theorem Silent.irq (h : Silent beyond s) (i : Irq) : Silent beyond (irqHandler dev i s) := by
  cases i with
  | dma1Channel2 => exact { h with wire_run := wire_run_concat h.wire_run .irq }
  | dma1Channel3 =>
      rw [irqHandler, dma1Channel3IRQHandler]
      split_ifs
      · exact { h with modulator := h.modulator }
      · exact h
  | tmr2Global => exact { h with modulator := h.modulator }
  | usart3 => exact h

omit [LinearOrder K] [FloorRing K] in
theorem Silent.hardware (h : Silent beyond s) (e : HardwareEvent) : Silent beyond (hardwareStep e s) := by
  cases e with
  | transfer => exact { h with wire_run := wire_run_concat h.wire_run (.hardware ()) }
  | conversion | overflow | idleLine => exact { h with modulator := h.modulator }

theorem Silent.main (hzero : floatBits 0 = 0) (h : Silent beyond s) : Silent beyond (mainProgram dev floatBits s) := by
  cases hpc : s.pc with
  | superloop =>
      have htabc : (if s.tx.pc = .idle then tabcWords floatBits s.pwm.modulator else s.tabc) = fun _ => 0 := by
        rw [h.modulator, tabcWords_tpSvpwm hzero, h.tabc, ite_self]
      simp only [mainProgram, hpc, htabc]
      exact ⟨h.modulator, rfl, wire_run_concat h.wire_run .main⟩
  | sample i =>
      simp only [mainProgram, hpc]
      split_ifs
      · exact { h with modulator := h.modulator }
      · exact { h with modulator := h.modulator }
  | enableDma2 | enableIdle | startDelay | drag | offset | enableTmr2 | enableDma3 =>
      simp only [mainProgram, hpc]
      exact { h with modulator := h.modulator }

theorem firmware_silent (hzero : floatBits 0 = 0) (events : List (Event HardwareEvent)) :
    Silent beyond (firmwareRun dev floatBits encoder port beyond events) :=
  Controller.history_run (fun _ s => Silent beyond s) ⟨rfl, rfl, [], rfl⟩ (fun _ _ h _ => h.main hzero)
    (fun _ _ i h _ => h.irq i) (fun _ _ e h => h.hardware e) events

/-- The frame of three zeros. -/
theorem zero_frame_getD {k : ℕ} (hk : k < 16) :
    (frame (fun _ => 0) 3).getD k 0 = if k = 14 then 0x80 else if k = 15 then 0x7F else 0 := by
  revert k
  decide

end Firmware

section Independence

variable {K : Type*} [Field K] [LinearOrder K] [FloorRing K] {σ τ : Type} {dev : SpiDevice σ} {dev' : SpiDevice τ}
  {floatBits : K → UInt32} {s : Firmware K σ} {t : Firmware K τ}

/-- Two firmwares that differ in what the encoder told them only: in the drive, and in the numbers they have printed. -/
structure Alike (s : Firmware K σ) (t : Firmware K τ) : Prop where
  pc : s.pc = t.pc
  tabc : s.tabc = t.tabc
  console : s.console.length = t.console.length
  tx : s.tx = t.tx
  modulator : s.pwm.modulator = t.pwm.modulator
  fdtInt2 : s.fdtInt2 = t.fdtInt2
  idleInt : s.idleInt = t.idleInt
  ovfInt : s.ovfInt = t.ovfInt
  fdtInt3 : s.fdtInt3 = t.fdtInt3
  fdt3 : s.fdt3 = t.fdt3
  ovf : s.ovf = t.ovf
  idlef : s.idlef = t.idlef

omit [Field K] [LinearOrder K] [FloorRing K] in
theorem Alike.pending (h : Alike s t) : pendingIrq s = pendingIrq t := by
  funext i
  cases i with
  | dma1Channel2 => rw [pendingIrq, pendingIrq, h.fdtInt2, h.tx]
  | dma1Channel3 => rw [pendingIrq, pendingIrq, h.fdtInt3, h.fdt3]
  | tmr2Global => rw [pendingIrq, pendingIrq, h.ovfInt, h.ovf]
  | usart3 => rw [pendingIrq, pendingIrq, h.idleInt, h.idlef]

theorem Alike.handler (h : Alike s t) (i : Irq) : Alike (irqHandler dev i s) (irqHandler dev' i t) := by
  cases i with
  | dma1Channel2 => exact { h with tx := congrArg dma1Channel2IRQHandler h.tx }
  | dma1Channel3 =>
      simp only [irqHandler, dma1Channel3IRQHandler, h.fdt3]
      split_ifs
      · exact { h with modulator := h.modulator, fdt3 := rfl }
      · exact h
  | tmr2Global => exact { h with ovf := rfl }
  | usart3 => exact h

omit [Field K] [LinearOrder K] [FloorRing K] in
theorem Alike.hardware (h : Alike s t) (e : HardwareEvent) : Alike (hardwareStep e s) (hardwareStep e t) := by
  cases e with
  | transfer =>
      refine { h with tx := ?_ }
      simp only [hardwareStep, h.tx]
  | conversion => exact { h with fdt3 := rfl }
  | overflow => exact { h with ovf := rfl }
  | idleLine => exact { h with idlef := rfl }

theorem Alike.main (h : Alike s t) : Alike (mainProgram dev floatBits s) (mainProgram dev' floatBits t) := by
  have hpc' := h.pc
  cases hpc : s.pc with
  | superloop =>
      rw [hpc] at hpc'
      simp only [mainProgram, hpc, ← hpc', h.tx, h.tabc, h.modulator]
      exact { h with pc := rfl, tabc := rfl, tx := rfl }
  | sample i =>
      rw [hpc] at hpc'
      simp only [mainProgram, hpc, ← hpc']
      split_ifs
      · exact { h with pc := rfl, modulator := h.modulator }
      · exact { h with pc := rfl }
  | enableDma2 =>
      rw [hpc] at hpc'
      simp only [mainProgram, hpc, ← hpc']
      exact { h with pc := rfl, fdtInt2 := rfl }
  | enableIdle =>
      rw [hpc] at hpc'
      simp only [mainProgram, hpc, ← hpc']
      exact { h with pc := rfl, idleInt := rfl }
  | enableTmr2 =>
      rw [hpc] at hpc'
      simp only [mainProgram, hpc, ← hpc']
      exact { h with pc := rfl, ovfInt := rfl }
  | enableDma3 =>
      rw [hpc] at hpc'
      simp only [mainProgram, hpc, ← hpc']
      exact { h with pc := rfl, fdtInt3 := rfl }
  | startDelay | drag =>
      rw [hpc] at hpc'
      simp only [mainProgram, hpc, ← hpc']
      exact { h with pc := rfl, modulator := h.modulator }
  | offset =>
      rw [hpc] at hpc'
      simp only [mainProgram, hpc, ← hpc']
      refine { h with pc := rfl, modulator := h.modulator, console := ?_ }
      simp only [List.length_append, h.console, List.length_singleton]

end Independence

/-- **Telemetry.** Whatever the encoder reads and in every interleaving, the modulator keeps its initial state and
DMA1 channel 2 sends no more than 64 bytes: zeros, the two non-zero bytes of the tail at their places, and the memory
behind the buffer. All that the encoder has a part in is what the calibration prints, once it has come to its end. -/
theorem telemetry_reports_nothing {K : Type*} [Field K] [LinearOrder K] [FloorRing K] {σ : Type} (dev : SpiDevice σ)
    (floatBits : K → UInt32) (hzero : floatBits 0 = 0) (encoder : Mt6701 K) (port : σ) (beyond : ℕ → UInt8)
    (events : List (Event HardwareEvent)) :
    let s := firmwareRun dev floatBits encoder port beyond events
    s.pwm.modulator = tpSvpwm ∧ s.tx.channel.wire.length ≤ 64 ∧
      (∀ k byte, s.tx.channel.wire[k]? = some byte →
        (k < 14 → byte = 0) ∧ (k = 14 → byte = 0 ∨ byte = 0x80) ∧ (k = 15 → byte = 0 ∨ byte = 0x7F) ∧
          (16 ≤ k → byte = beyond k)) ∧
      s.console = if s.pc.calibrated then calibrationReport dev encoder port else [] := by
  intro s
  have hsilent : Silent beyond s := firmware_silent hzero events
  obtain ⟨txEvents, htx⟩ := hsilent.wire_run
  have hbytes : BytesOfCalls (fun _ _ => 0) beyond s.tx := by
    rw [show s.tx = _ from htx]
    exact run_invariant (BytesOfCalls _ beyond) (fun _ e h => bytesOfCalls_step h e) bytesOfCalls_start txEvents
  have hordered := firmware_ordered dev floatBits encoder port beyond events
  refine ⟨hsilent.modulator, ?_, fun k byte hbyte => ?_, hordered.printed⟩
  · have hcount := hbytes.counted
    rw [hbytes.sent]
    omega
  · have hcall := hbytes.wire k byte hbyte
    rw [CallByte] at hcall
    split_ifs at hcall with hk
    · have hframe : byte = 0 ∨ byte = if k = 14 then 0x80 else if k = 15 then 0x7F else 0 := by
        rcases hcall with hcall | ⟨call, hcall⟩
        · exact .inl hcall
        · exact .inr (hcall.trans (zero_frame_getD hk))
      refine ⟨fun hlow => ?_, fun heq => ?_, fun heq => ?_, fun hge => absurd hk (not_lt.mpr hge)⟩
      · rw [if_neg (by omega), if_neg (by omega), or_self] at hframe
        exact hframe
      · rwa [if_pos heq] at hframe
      · rwa [if_neg (by omega), if_pos heq] at hframe
    · exact ⟨fun hlow => absurd hlow (by omega), fun heq => absurd heq (by omega), fun heq => absurd heq (by omega),
        fun _ => hcall⟩

/-- One call on the way, with eight bytes sent. -/
theorem telemetry_reports_nothing_at_rest :
    let events : List (Event HardwareEvent) := List.replicate 30 .cpu ++ List.replicate 8 (.hardware .transfer)
    let s := firmwareRun byteListDevice (fun x : ℚ => if x = 1 then 0x3F800000 else 0) ⟨0⟩ [] (fun _ => 0xAA) events
    s.pwm.modulator = tpSvpwm ∧ s.tx.channel.wire.length ≤ 64 ∧
      (∀ k byte, s.tx.channel.wire[k]? = some byte →
        (k < 14 → byte = 0) ∧ (k = 14 → byte = 0 ∨ byte = 0x80) ∧ (k = 15 → byte = 0 ∨ byte = 0x7F) ∧
          (16 ≤ k → byte = 0xAA)) ∧
      s.console = if s.pc.calibrated then calibrationReport byteListDevice ⟨0⟩ [] else [] :=
  telemetry_reports_nothing byteListDevice _ (by decide) ⟨0⟩ [] (fun _ => 0xAA) _

/-- **Independence.** With a frame of `main` as one step of it, the same events give the same schedule and the same
bytes of DMA1 channel 2, whatever the encoders: only the drive of the motor and the numbers that the calibration
prints can differ. -/
theorem schedule_independent_of_encoder {K : Type*} [Field K] [LinearOrder K] [FloorRing K] {σ τ : Type} (dev : SpiDevice σ)
    (dev' : SpiDevice τ) (floatBits : K → UInt32) (encoder encoder' : Mt6701 K) (port : σ) (port' : τ) (beyond : ℕ → UInt8)
    (events : List (Event HardwareEvent)) :
    let s := firmwareRun dev floatBits encoder port beyond events
    let t := firmwareRun dev' floatBits encoder' port' beyond events
    Alike s t ∧ (firmware dev floatBits).next s = (firmware dev' floatBits).next t := by
  intro s t
  have hstart : Alike (Firmware.start encoder port beyond) (Firmware.start encoder' port' beyond) :=
    ⟨rfl, rfl, rfl, rfl, rfl, rfl, rfl, rfl, rfl, rfl, rfl, rfl⟩
  have halike : Alike s t := by
    simp only [s, t, firmwareRun]
    exact Controller.related_run (fun (s : Firmware K σ) (t : Firmware K τ) => Alike s t) rfl (fun _ _ h => h.pending)
      (fun _ _ h => h.main) (fun _ _ i h => h.handler i) (fun _ _ e h => h.hardware e) hstart events
  refine ⟨halike, ?_⟩
  simp only [Controller.next, firmware, halike.pending]

end FocFirmware
