import FocFirmware.BaseLittleEndian
import FocFirmware.TelemetryWire
import Mathlib.Logic.Function.Iterate

/-! One call of `USART3_SendFloatArray`, for every size. The loop counter has eight bits and the bound four
times the size, so from 64 floats on the copy never ends; the buffer holds three floats and the tail, so
from four floats on the call writes past it. Up to three, the buffer ends up with the frame. -/

namespace FocFirmware

open LittleEndian

/-- The index of the buffer that the main loop writes next. -/
def SendPc.writes (size : UInt8) : SendPc → Option ℕ
  | .copy i => if i.toNat < size.toNat * 4 then some i.toNat else none
  | .tail k => some (size.toNat * 4 + k.val)
  | _ => none

/-- How many bytes of its frame the call in progress has written. -/
def SendPc.filled (size : UInt8) : SendPc → ℕ
  | .idle => 0
  | .copy i => i.toNat
  | .tail k => size.toNat * 4 + k.val
  | .wait => size.toNat * 4 + 4
  | .enable => size.toNat * 4 + 4

/-- `n` steps of the main loop, from the beginning of a call. -/
def sending (size : UInt8) (data : ℕ → ℕ → UInt32) (s : TxState) (n : ℕ) : TxState :=
  (mainStep size data)^[n] { s with pc := .idle }

/-- Word `i` of the memory from the start of the buffer. -/
def wordAt (mem : ℕ → UInt8) (i : ℕ) : UInt32 :=
  wordOf (mem (4 * i)) (mem (4 * i + 1)) (mem (4 * i + 2)) (mem (4 * i + 3))

/-- The call copies and ends copying, writes inside the buffer only, and leaves the frame there, from which
the array can be read back. -/
structure FrameSafe (size : UInt8) (data : ℕ → ℕ → UInt32) (s : TxState) : Prop where
  terminates : ∃ n, (sending size data s n).pc = .tail 0
  in_bounds : ∀ n, (sending size data s n).calls = s.calls + 1 →
    ∀ j, (sending size data s n).pc.writes size = some j → j < usart3TxBufferSize
  encoded : ∀ n, (sending size data s n).calls = s.calls + 1 → (sending size data s n).pc = .wait →
    (List.range (size.toNat * 4 + 4)).map (sending size data s n).mem = frame (data (s.calls + 1)) size.toNat
  recovered : ∀ n, (sending size data s n).calls = s.calls + 1 → (sending size data s n).pc = .wait →
    ∀ i < size.toNat, wordAt (sending size data s n).mem i = data (s.calls + 1) i

section Steps

variable {size : UInt8} {data : ℕ → ℕ → UInt32} {s t : TxState}

theorem writes_lt {j : ℕ} {pc : SendPc} (h : pc.writes size = some j) : j < size.toNat * 4 + 4 := by
  cases pc with
  | copy i =>
      simp only [SendPc.writes, Option.ite_none_right_eq_some, Option.some.injEq] at h
      omega
  | tail k =>
      simp only [SendPc.writes, Option.some.injEq] at h
      have hk := k.isLt
      omega
  | idle | wait | enable => cases h

/-- What the call in progress has done: the counter is at most its bound, and the bytes before it are there. -/
structure CallProgress (size : UInt8) (array : ℕ → UInt32) (t : TxState) : Prop where
  counter_le : ∀ i, t.pc = .copy i → i.toNat ≤ size.toNat * 4
  filled : ∀ k < t.pc.filled size, t.mem k = (frame array size.toNat).getD k 0

theorem CallProgress.past_copy {array : ℕ → UInt32} (hpc : ∀ i, t.pc ≠ .copy i)
    (hfilled : ∀ k < t.pc.filled size, t.mem k = (frame array size.toNat).getD k 0) : CallProgress size array t :=
  ⟨fun i hi => absurd hi (hpc i), hfilled⟩

/-- One more byte. -/
theorem filled_update {mem frameByte : ℕ → UInt8} {w : ℕ} {byte : UInt8} (hbyte : byte = frameByte w)
    (h : ∀ k < w, mem k = frameByte k) : ∀ k < w + 1, Function.update mem w byte k = frameByte k := by
  intro k hk
  by_cases heq : k = w
  · rw [heq, Function.update_self, hbyte]
  · rw [Function.update_of_ne heq, h k (by omega)]

theorem CallProgress.main (hsize : size.toNat < 64) (h : CallProgress size (data t.calls) t)
    (hsame : (mainStep size data t).calls = t.calls) : CallProgress size (data t.calls) (mainStep size data t) := by
  have hfilled := h.filled
  cases hpc : t.pc with
  | idle =>
      simp only [mainStep, hpc] at hsame
      omega
  | copy i =>
      have hle := h.counter_le i hpc
      rw [hpc] at hfilled
      simp only [mainStep, hpc]
      by_cases hlt : i.toNat < size.toNat * 4
      · have hsucc := counter_succ hlt (by omega)
        rw [if_pos hlt]
        refine ⟨?_, ?_⟩
        · rintro j ⟨⟩
          omega
        · simp only [SendPc.filled, hsucc]
          exact filled_update (frame_getD_data (data t.calls) hlt).symm hfilled
      · have hend : i.toNat = size.toNat * 4 := by omega
        rw [if_neg hlt]
        refine .past_copy (by simp) ?_
        rw [SendPc.filled, hend] at hfilled
        exact hfilled
  | tail k =>
      have hextended := filled_update (frame_getD_tail (data t.calls) size.toNat k).symm (hpc ▸ hfilled)
      simp only [mainStep, hpc]
      by_cases hlast : k = 3
      · rw [if_pos hlast]
        rw [hlast] at hextended ⊢
        exact .past_copy (by simp) hextended
      · rw [if_neg hlast]
        refine .past_copy (by simp) ?_
        simp only [SendPc.filled, tail_succ hlast]
        exact hextended
  | wait =>
      simp only [mainStep, hpc]
      by_cases hclear : t.usart3TxDmaStatus = 0
      · rw [if_pos hclear]
        exact h
      · rw [hpc] at hfilled
        rw [if_neg hclear]
        exact .past_copy (by simp) hfilled
  | enable =>
      simp only [mainStep, hpc]
      exact .past_copy (by simp) fun k hk => absurd hk (Nat.not_lt_zero k)

end Steps

section Call

variable (size : UInt8) (data : ℕ → ℕ → UInt32) (s : TxState)

theorem sending_succ (n : ℕ) : sending size data s (n + 1) = mainStep size data (sending size data s n) :=
  Function.iterate_succ_apply' _ _ _

theorem le_calls (t : TxState) : t.calls ≤ (mainStep size data t).calls := by
  cases hpc : t.pc with
  | idle => simp only [mainStep, hpc, le_add_iff_nonneg_right, zero_le]
  | copy i =>
      simp only [mainStep, hpc]
      split_ifs <;> rfl
  | wait =>
      simp only [mainStep, hpc]
      split_ifs <;> rfl
  | tail k => simp only [mainStep, hpc, le_refl]
  | enable => simp only [mainStep, hpc, le_refl]

/-- Through the whole call its progress is kept. -/
theorem sending_progress (hsize : size.toNat < 64) (n : ℕ) :
    (sending size data s n).calls = s.calls ∧ (sending size data s n).pc = .idle ∨
      s.calls + 1 ≤ (sending size data s n).calls ∧
        ((sending size data s n).calls = s.calls + 1 → CallProgress size (data (s.calls + 1)) (sending size data s n)) := by
  induction n with
  | zero => exact .inl ⟨rfl, rfl⟩
  | succ n ih =>
      rw [sending_succ]
      generalize sending size data s n = t at ih
      right
      rcases ih with ⟨hcalls, hpc⟩ | ⟨hcalls, hprogress⟩
      · simp only [mainStep, hpc, hcalls]
        refine ⟨le_rfl, fun _ => ⟨?_, fun k hk => absurd hk (Nat.not_lt_zero k)⟩⟩
        rintro i ⟨⟩
        exact Nat.zero_le _
      · have hle := le_calls size data t
        refine ⟨hcalls.trans hle, fun hcall => ?_⟩
        have hthis : t.calls = s.calls + 1 := by omega
        have hkept := hprogress hthis
        rw [← hthis] at hkept ⊢
        exact hkept.main hsize (hcall.trans hthis.symm)

/-- As long as no counter value has reached the bound, the loop copies. -/
theorem sending_copy (i : ℕ) (hbelow : ∀ j < i, (UInt8.ofNat j).toNat < size.toNat * 4) :
    (sending size data s (i + 1)).pc = .copy (UInt8.ofNat i) ∧ (sending size data s (i + 1)).calls = s.calls + 1 := by
  induction i with
  | zero => exact ⟨rfl, rfl⟩
  | succ i ih =>
      obtain ⟨hpc, hcalls⟩ := ih fun j hj => hbelow j (by omega)
      have hsucc : UInt8.ofNat i + 1 = UInt8.ofNat (i + 1) := by
        apply UInt8.toNat_inj.mp
        simp [UInt8.toNat_add]
      rw [sending_succ]
      simp only [mainStep, hpc]
      rw [if_pos (hbelow i (by omega))]
      exact ⟨congrArg SendPc.copy hsucc, hcalls⟩

/-- With a bound past all counter values the loop copies for ever. -/
theorem copies_for_ever (hsize : 64 ≤ size.toNat) (n : ℕ) : (sending size data s n).pc ≠ .tail 0 := by
  cases n with
  | zero => exact fun hpc => nomatch hpc
  | succ i =>
      have hcopy := (sending_copy size data s i fun j _ => by
        have hj := (UInt8.ofNat j).toNat_lt
        omega).1
      rw [hcopy]
      exact fun hpc => nomatch hpc

theorem ofNat_lt_of_lt {j : ℕ} (hsize : size.toNat < 64) (hj : j < size.toNat * 4) :
    (UInt8.ofNat j).toNat < size.toNat * 4 := by
  rw [UInt8.toNat_ofNat', Nat.mod_eq_of_lt (by omega)]
  exact hj

theorem copy_ends (hsize : size.toNat < 64) :
    (sending size data s (size.toNat * 4 + 2)).pc = .tail 0 ∧
      (sending size data s (size.toNat * 4 + 2)).calls = s.calls + 1 := by
  obtain ⟨hpc, hcalls⟩ := sending_copy size data s (size.toNat * 4) fun j hj => ofNat_lt_of_lt size hsize hj
  have hend : ¬(UInt8.ofNat (size.toNat * 4)).toNat < size.toNat * 4 := by
    rw [UInt8.toNat_ofNat', Nat.mod_eq_of_lt (by omega)]
    omega
  rw [sending_succ]
  simp only [mainStep, hpc]
  rw [if_neg hend]
  exact ⟨rfl, hcalls⟩

theorem writes_end (hsize : size.toNat < 64) :
    (sending size data s (size.toNat * 4 + 6)).pc = .wait ∧
      (sending size data s (size.toNat * 4 + 6)).calls = s.calls + 1 := by
  obtain ⟨hpc, hcalls⟩ := copy_ends size data s hsize
  rw [sending_succ, sending_succ, sending_succ, sending_succ]
  generalize sending size data s (size.toNat * 4 + 2) = t at hpc hcalls
  simp [mainStep, hpc, hcalls]

/-- From four floats on, the call writes the byte behind the buffer. -/
theorem writes_past_buffer (hsize : 4 ≤ size.toNat) : ∃ n, (sending size data s n).calls = s.calls + 1 ∧
    (sending size data s n).pc.writes size = some usart3TxBufferSize := by
  by_cases hfour : size.toNat = 4
  · obtain ⟨hpc, hcalls⟩ := copy_ends size data s (by omega)
    refine ⟨size.toNat * 4 + 2, hcalls, ?_⟩
    rw [hpc, SendPc.writes, hfour]
    rfl
  · have hsmall : ∀ j ≤ 16, (UInt8.ofNat j).toNat = j := fun j hj => by
      rw [UInt8.toNat_ofNat', Nat.mod_eq_of_lt (by omega)]
    obtain ⟨hpc, hcalls⟩ := sending_copy size data s 16 fun j hj => by
      rw [hsmall j hj.le]
      omega
    refine ⟨17, hcalls, ?_⟩
    rw [hpc, SendPc.writes, hsmall 16 le_rfl, if_pos (by omega)]
    rfl

/-- When the writes are done the buffer holds the frame. -/
theorem frame_in_buffer (hsize : size.toNat < 64) {n : ℕ} (hcall : (sending size data s n).calls = s.calls + 1)
    (hdone : (sending size data s n).pc = .wait) :
    ∀ k < size.toNat * 4 + 4, (sending size data s n).mem k = (frame (data (s.calls + 1)) size.toNat).getD k 0 := by
  rcases sending_progress size data s hsize n with ⟨hcalls, -⟩ | ⟨-, hprogress⟩
  · omega
  · have hfilled := (hprogress hcall).filled
    rwa [hdone] at hfilled

theorem wordAt_of_bytes {mem : ℕ → UInt8} {array : ℕ → UInt32} {i : ℕ}
    (h : ∀ k < 4, mem (4 * i + k) = bytePtr array (4 * i + k)) : wordAt mem i = array i := by
  have hbyte : ∀ k < 4, mem (4 * i + k) = byteOf (array i) k := by
    intro k hk
    rw [h k hk, bytePtr, show (4 * i + k) / 4 = i by omega, show (4 * i + k) % 4 = k by omega]
    rfl
  rw [wordAt, hbyte 1 (by decide), hbyte 2 (by decide), hbyte 3 (by decide),
    show mem (4 * i) = byteOf (array i) 0 from hbyte 0 (by decide)]
  exact wordOf_byteOf _

theorem frameSafe_of_le (hsize : size.toNat ≤ 3) : FrameSafe size data s where
  terminates := ⟨_, (copy_ends size data s (by omega)).1⟩
  in_bounds n _ j hj := by
    have hlt := writes_lt hj
    rw [usart3TxBufferSize]
    omega
  encoded n hcall hdone := by
    have hframe := frame_in_buffer size data s (by omega) hcall hdone
    apply List.ext_getElem
    · simp [frame_length]
    · intro k hk hk'
      rw [frame_length] at hk'
      simp only [List.getElem_map, List.getElem_range]
      rw [hframe k hk', List.getD_eq_getElem]
  recovered n hcall hdone i hi := by
    have hframe := frame_in_buffer size data s (by omega) hcall hdone
    apply wordAt_of_bytes
    intro k hk
    rw [hframe _ (by omega), frame_getD_data _ (by omega)]

end Call

/-- **Frames of every size.** A call with up to three floats is safe and leaves the frame; with four or more
it writes behind the buffer, and with 64 or more it copies for ever. -/
theorem frame_safe_iff (size : UInt8) (data : ℕ → ℕ → UInt32) (s : TxState) :
    (FrameSafe size data s ↔ size.toNat ≤ 3) ∧ ((∃ n, (sending size data s n).pc = .tail 0) ↔ size.toNat < 64) := by
  refine ⟨⟨fun hsafe => ?_, frameSafe_of_le size data s⟩, fun ⟨n, hn⟩ => ?_, fun hsize => ?_⟩
  · by_contra hlarge
    obtain ⟨n, hcall, hwrites⟩ := writes_past_buffer size data s (by omega)
    exact lt_irrefl _ (hsafe.in_bounds n hcall _ hwrites)
  · by_contra hlarge
    exact copies_for_ever size data s (by omega) n hn
  · exact ⟨_, (copy_ends size data s hsize).1⟩

/-- Four floats overrun the buffer, 64 are copied for ever. -/
theorem frames_of_four_and_sixty_four :
    let data : ℕ → ℕ → UInt32 := fun _ _ => 0x3F800000
    let s : TxState := .start (fun _ => 0) channel2Setup
    ¬FrameSafe 4 data s ∧ (sending 4 data s 18).pc.writes 4 = some 16 ∧ ¬FrameSafe 64 data s ∧
      ∀ n, (sending 64 data s n).pc ≠ .tail 0 := by
  intro data s
  have hwrites : (sending 4 data s 18).pc.writes 4 = some 16 := by decide +kernel
  have hforever : ∀ n, (sending 64 data s n).pc ≠ .tail 0 := copies_for_ever 64 data s (by decide)
  refine ⟨fun hsafe => ?_, hwrites, fun hsafe => ?_, hforever⟩
  · exact absurd (hsafe.in_bounds 18 (by decide +kernel) 16 hwrites) (by decide)
  · obtain ⟨n, hn⟩ := hsafe.terminates
    exact hforever n hn

end FocFirmware
