import FocFirmware.TelemetryChannel
import Mathlib.Data.List.GetD

/-! The telemetry wire under the set-up of `main`. The channel is armed for `RX_BUFFER_SIZE` bytes, more
than one frame, and is never armed again. The wire carries frames only as long as the transfers stay
behind the writes of the first call and inside its frame. -/

namespace FocFirmware

open Runs

/-- One step of an enabled channel without loop mode: the next byte of memory goes out. -/
def transfer (mem : ℕ → UInt8) (channel : DmaChannel) : DmaChannel :=
  if channel.chen ∧ channel.dtcnt ≠ 0 then
    { channel with
      wire := channel.wire ++ [mem channel.next]
      next := channel.next + 1
      dtcnt := channel.dtcnt - 1
      fdt2 := channel.fdt2 || channel.dtcnt == 1 }
  else channel

/-- Channel 2 as `main` leaves it. -/
def channel2Setup : DmaChannel := ⟨true, dma1Channel2BufferSize, 0, false, []⟩

/-- Power-up: the buffer is zero, memory past it holds `beyond`. -/
def wireStart (beyond : ℕ → UInt8) : TxState :=
  .start (fun k => if k < usart3TxBufferSize then 0 else beyond k) channel2Setup

/-- The system with the three floats of `main` and the channel's own hardware. -/
def wireStep (data : ℕ → ℕ → UInt32) : TxState → TxEvent Unit → TxState :=
  txStep (fun _ mem channel => transfer mem channel) 3 data

/-- The frames of the first `n` calls, in order. -/
def sentFrames (data : ℕ → ℕ → UInt32) (n : ℕ) : List UInt8 :=
  (List.range n).flatMap fun call => frame (data (call + 1)) 3

/-- The wire is a prefix of the frames of the calls, and complete when the channel is done after a call. -/
def WireHolds (data : ℕ → ℕ → UInt32) (s : TxState) : Prop :=
  s.channel.wire <+: sentFrames data s.calls ∧
    (s.pc = .idle → s.channel.dtcnt = 0 → sentFrames data s.calls <+: s.channel.wire)

/-- How many bytes of its frame the call in progress has written. -/
def SendPc.written : SendPc → ℕ
  | .copy i => i.toNat
  | .tail k => 12 + k.val
  | _ => 16

/-- The channel is about to send a byte of the first frame that the first call has written, or one that
is zero in the frame as it is in the buffer. -/
def TransferInFrame (data : ℕ → ℕ → UInt32) (s : TxState) : Prop :=
  0 < s.calls ∧ s.channel.next < 16 ∧
    (s.channel.next < s.pc.written ∨ (frame (data 1) 3).getD s.channel.next 0 = 0)

/-- The events after which the wire still holds its promise. -/
def WireAllowed (data : ℕ → ℕ → UInt32) (s : TxState) (e : TxEvent Unit) : Prop :=
  e = .hardware () → s.channel.chen = true → s.channel.dtcnt ≠ 0 → TransferInFrame data s

theorem frame_length (data : ℕ → UInt32) (size : ℕ) : (frame data size).length = size * 4 + 4 := by
  simp [frame, frameTail]

theorem frame_getD_data (data : ℕ → UInt32) {size k : ℕ} (hk : k < size * 4) :
    (frame data size).getD k 0 = bytePtr data k := by
  rw [frame, List.getD_append _ _ _ _ (by simpa using hk), List.getD_eq_getElem _ _ (by simpa using hk)]
  simp

theorem frame_getD_tail (data : ℕ → UInt32) (size : ℕ) (k : Fin 4) :
    (frame data size).getD (size * 4 + k.val) 0 = frameTail.getD k.val 0 := by
  rw [frame, List.getD_append_right _ _ _ _ (by simp)]
  simp

/-- The loop counter does not wrap below a bound of eight bits. -/
theorem counter_succ {i : UInt8} {bound : ℕ} (hi : i.toNat < bound) (hbound : bound < 256) : (i + 1).toNat = i.toNat + 1 := by
  rw [UInt8.toNat_add, UInt8.toNat_one, Nat.mod_eq_of_lt (by omega)]

theorem tail_succ {k : Fin 4} (hlast : k ≠ 3) : (k + 1).val = k.val + 1 := by
  have hk := k.isLt
  omega

/-- The first `k + 1` bytes are the first `k` and the next one. -/
theorem frame_take_succ (data : ℕ → UInt32) {size k : ℕ} (hk : k < size * 4 + 4) :
    (frame data size).take (k + 1) = (frame data size).take k ++ [(frame data size).getD k 0] := by
  have hlen : k < (frame data size).length := by rwa [frame_length]
  rw [List.take_succ_eq_append_getElem hlen, List.getD_eq_getElem _ _ hlen]

/-- Where the first call is while the channel is still inside its frame. -/
def FirstCall (s : TxState) : Prop :=
  s.calls = 0 ∧ s.pc = .idle ∧ s.channel.next = 0 ∨
    s.calls = 1 ∧ ((∃ i : UInt8, s.pc = .copy i ∧ i.toNat ≤ 12) ∨ (∃ k, s.pc = .tail k) ∨ s.pc = .wait)

/-- Bytes of the first frame in the buffer: none before the first call. -/
def writtenBytes (s : TxState) : ℕ := if s.calls = 0 then 0 else s.pc.written

/-- What holds while all transfers have stayed inside the first frame. -/
structure WireInv (data : ℕ → ℕ → UInt32) (s : TxState) : Prop where
  status_clear : s.usart3TxDmaStatus = 0
  flag_clear : s.channel.fdt2 = false
  enabled : s.channel.chen = true
  counted : s.channel.dtcnt + s.channel.next = 64
  inside : s.channel.next ≤ 16
  first_call : FirstCall s
  wire_eq : s.channel.wire = (frame (data 1) 3).take s.channel.next
  buffer : ∀ k < 16, s.mem k = if k < writtenBytes s then (frame (data 1) 3).getD k 0 else 0

section Invariant

variable {data : ℕ → ℕ → UInt32} {s : TxState}

theorem sentFrames_zero : sentFrames data 0 = [] := rfl

theorem sentFrames_one : sentFrames data 1 = frame (data 1) 3 := by simp [sentFrames]

theorem WireInv.holds (h : WireInv data s) : WireHolds data s := by
  have hcount := h.counted
  have hinside := h.inside
  refine ⟨?_, fun _ hdone => by omega⟩
  rw [h.wire_eq]
  rcases h.first_call with ⟨hcalls, -, hnext⟩ | ⟨hcalls, -⟩
  · rw [hcalls, hnext]
    exact List.nil_prefix
  · rw [hcalls, sentFrames_one]
    exact List.take_prefix _ _

/-- A transfer inside the frame sends the frame's next byte. -/
theorem WireInv.next_byte (h : WireInv data s) (hin : TransferInFrame data s) :
    s.mem s.channel.next = (frame (data 1) 3).getD s.channel.next 0 := by
  obtain ⟨hcalls, hnext, hbyte⟩ := hin
  rw [h.buffer _ hnext, writtenBytes, if_neg hcalls.ne']
  split_ifs with hwritten
  · rfl
  · rcases hbyte with hbyte | hbyte
    · exact absurd hbyte hwritten
    · exact hbyte.symm

theorem WireInv.hardware (h : WireInv data s) (hin : TransferInFrame data s) :
    WireInv data { s with channel := transfer s.mem s.channel } := by
  have hcount := h.counted
  have hinside := hin.2.1
  have hmoves : s.channel.chen = true ∧ s.channel.dtcnt ≠ 0 := ⟨h.enabled, by omega⟩
  have hcalls : s.calls = 1 := by
    rcases h.first_call with ⟨hcalls, -⟩ | ⟨hcalls, -⟩
    · exact absurd hcalls hin.1.ne'
    · exact hcalls
  refine ⟨h.status_clear, ?_, ?_, ?_, ?_, ?_, ?_, h.buffer⟩ <;> simp only [transfer, if_pos hmoves]
  · rw [h.flag_clear, Bool.false_or, beq_eq_false_iff_ne]
    omega
  · exact h.enabled
  · omega
  · omega
  · rcases h.first_call with ⟨hzero, -⟩ | hfirst
    · omega
    · exact .inr hfirst
  · rw [h.next_byte hin, h.wire_eq, frame_take_succ _ (by omega)]

/-- The interrupt finds no flag. -/
theorem WireInv.irq (h : WireInv data s) : dma1Channel2IRQHandler s = s := by
  rw [dma1Channel2IRQHandler, h.flag_clear]
  rfl

/-- Writing the next byte of the frame extends what the buffer holds by one. -/
theorem buffer_extend {w : ℕ} {byte : UInt8} (hbyte : byte = (frame (data 1) 3).getD w 0)
    (h : ∀ k < 16, s.mem k = if k < w then (frame (data 1) 3).getD k 0 else 0) :
    ∀ k < 16, Function.update s.mem w byte k = if k < w + 1 then (frame (data 1) 3).getD k 0 else 0 := by
  intro k hk
  by_cases heq : k = w
  · rw [heq, Function.update_self, if_pos (Nat.lt_succ_self w), hbyte]
  · rw [Function.update_of_ne heq, h k hk]
    by_cases hlt : k < w
    · rw [if_pos hlt, if_pos (by omega)]
    · rw [if_neg hlt, if_neg (by omega)]

/-- During the first call the buffer invariant is about what that call has written. -/
theorem buffer_in_call (hcalls : s.calls = 1)
    (h : ∀ k < 16, s.mem k = if k < s.pc.written then (frame (data 1) 3).getD k 0 else 0) :
    ∀ k < 16, s.mem k = if k < writtenBytes s then (frame (data 1) 3).getD k 0 else 0 := by
  rwa [writtenBytes, if_neg (by omega)]

theorem WireInv.buffer_of_call (h : WireInv data s) (hcalls : s.calls = 1) :
    ∀ k < 16, s.mem k = if k < s.pc.written then (frame (data 1) 3).getD k 0 else 0 := by
  have hbuffer := h.buffer
  rwa [writtenBytes, if_neg (by omega)] at hbuffer

/-- The main loop starts the first call, writes its frame, and then waits. -/
theorem WireInv.main (h : WireInv data s) : WireInv data (mainStep 3 data s) := by
  rcases h.first_call with ⟨hcalls, hpc, hnext⟩ | ⟨hcalls, ⟨i, hpc, hi⟩ | ⟨k, hpc⟩ | hpc⟩
  · simp only [mainStep, hpc]
    refine { h with first_call := .inr ⟨by simp [hcalls], .inl ⟨0, rfl, by decide⟩⟩, buffer := ?_ }
    intro k hk
    rw [h.buffer k hk, writtenBytes, if_pos hcalls]
    simp [writtenBytes, SendPc.written]
  · have hbuffer := h.buffer_of_call hcalls
    rw [hpc, SendPc.written] at hbuffer
    simp only [mainStep, hpc]
    split_ifs with hlt
    · have hi12 : i.toNat < 3 * 4 := hlt
      have hsucc := counter_succ hi12 (by decide)
      have hbyte : bytePtr (data s.calls) i.toNat = (frame (data 1) 3).getD i.toNat 0 := by
        rw [hcalls, frame_getD_data (data 1) hi12]
      refine { h with first_call := .inr ⟨hcalls, .inl ⟨i + 1, rfl, by omega⟩⟩, buffer := buffer_in_call hcalls ?_ }
      rw [SendPc.written, hsucc]
      exact buffer_extend hbyte hbuffer
    · have hi12 : i.toNat = 12 := by
        have hge : ¬i.toNat < 12 := hlt
        omega
      refine { h with first_call := .inr ⟨hcalls, .inr (.inl ⟨0, rfl⟩)⟩, buffer := buffer_in_call hcalls ?_ }
      rwa [hi12] at hbuffer
  · have hbuffer := h.buffer_of_call hcalls
    rw [hpc, SendPc.written] at hbuffer
    have hbyte := (frame_getD_tail (data 1) 3 k).symm
    have hextended := buffer_extend hbyte hbuffer
    simp only [mainStep, hpc]
    by_cases hlast : k = 3
    · rw [if_pos hlast]
      rw [hlast] at hextended ⊢
      exact { h with first_call := .inr ⟨hcalls, .inr (.inr rfl)⟩, buffer := buffer_in_call hcalls hextended }
    · rw [if_neg hlast]
      refine { h with first_call := .inr ⟨hcalls, .inr (.inl ⟨k + 1, rfl⟩)⟩, buffer := buffer_in_call hcalls ?_ }
      rw [SendPc.written, tail_succ hlast]
      exact hextended
  · simp only [mainStep, hpc, if_pos h.status_clear]
    exact h

/-- A transfer outside the frame puts a byte on the wire that is not the frame's. -/
theorem WireInv.broken (h : WireInv data s) (hout : ¬TransferInFrame data s) :
    ¬WireHolds data { s with channel := transfer s.mem s.channel } := by
  have hcount := h.counted
  have hinside := h.inside
  have hmoves : s.channel.chen = true ∧ s.channel.dtcnt ≠ 0 := ⟨h.enabled, by omega⟩
  rintro ⟨hwire, -⟩
  simp only [transfer, if_pos hmoves] at hwire
  rcases h.first_call with ⟨hcalls, -⟩ | ⟨hcalls, -⟩
  · rw [hcalls, sentFrames_zero, List.prefix_nil] at hwire
    exact List.append_ne_nil_of_right_ne_nil _ (List.cons_ne_nil _ _) hwire
  · rw [hcalls, sentFrames_one, h.wire_eq] at hwire
    have hlen := hwire.length_le
    rw [List.length_append, List.length_take, frame_length, List.length_singleton] at hlen
    have hnext : s.channel.next < 16 := by omega
    have hsame : (frame (data 1) 3).take s.channel.next ++ [s.mem s.channel.next] =
        (frame (data 1) 3).take (s.channel.next + 1) := by
      have htake := List.prefix_iff_eq_take.mp hwire
      rw [htake, List.length_append, List.length_take, frame_length, List.length_singleton,
        Nat.min_eq_left (by omega)]
    rw [frame_take_succ _ (by omega), List.append_cancel_left_eq] at hsame
    have hbyte := (List.cons.inj hsame).1
    rw [h.buffer_of_call hcalls _ hnext] at hbyte
    refine hout ⟨by omega, hnext, ?_⟩
    by_cases hwritten : s.channel.next < s.pc.written
    · exact .inl hwritten
    · rw [if_neg hwritten] at hbyte
      exact .inr hbyte.symm

end Invariant

/-- **The wire.** A run keeps the wire to the frames of its calls exactly when every transfer sends a
byte that the first call has written, or one that is zero in its frame, within the first 16 bytes. -/
theorem wire_holds_iff_inside_first_frame (data : ℕ → ℕ → UInt32) (beyond : ℕ → UInt8) (events : List (TxEvent Unit)) :
    Throughout (wireStep data) (WireHolds data) (wireStart beyond) events ↔
      Along (wireStep data) (WireAllowed data) (wireStart beyond) events := by
  refine throughout_iff_along (WireInv data) (fun s h => h.holds) ?_ ?_ ?_ events
  · intro s e h hallowed
    cases e with
    | main => exact h.main
    | irq =>
        rw [wireStep, txStep, h.irq]
        exact h
    | hardware u =>
        have hcount := h.counted
        have hinside := h.inside
        exact h.hardware (hallowed rfl h.enabled (by omega))
  · intro s e h hbad
    cases e with
    | hardware u => exact h.broken fun hin => hbad fun _ _ _ => hin
    | main => exact (hbad fun heq => nomatch heq).elim
    | irq => exact (hbad fun heq => nomatch heq).elim
  · refine ⟨rfl, rfl, rfl, rfl, Nat.zero_le _, .inl ⟨rfl, rfl, rfl⟩, rfl, fun k hk => ?_⟩
    exact if_pos hk

/-- A whole first call, then 64 transfers: past the frame the wire carries the memory behind the buffer,
and the second call's frame never follows. -/
theorem wire_broken_past_first_frame :
    let data : ℕ → ℕ → UInt32 := fun _ _ => 0x3F800000
    let events : List (TxEvent Unit) := List.replicate 18 .main ++ List.replicate 64 (.hardware ()) ++ [.irq] ++
      List.replicate 22 .main ++ List.replicate 16 (.hardware ())
    let s := run (wireStep data) (wireStart fun _ => 0xAA) events
    (s.calls = 2 ∧ s.pc = .idle ∧ s.channel.dtcnt = 0) ∧
      s.channel.wire = frame (data 1) 3 ++ List.replicate 48 0xAA ∧ ¬s.channel.wire <+: sentFrames data s.calls := by
  decide +kernel

end FocFirmware
