import FocFirmware.TelemetryChannel
import Mathlib.Data.List.Nodup
import Mathlib.Data.List.Perm.Subperm

/-! The transmit-complete handshake. The interrupt sets `usart3_tx_dma_status` and nothing clears it, so
the flag of one completion lets every later call pass the wait. Nothing is assumed of the channel. -/

namespace FocFirmware

open Runs

/-- No more calls have passed the wait than completions were handled, and no two of them on one. -/
def HandshakeHolds (s : TxState) : Prop := s.used.length ≤ s.handled ∧ s.used.Nodup

/-- The completion that last set the flag has already let a call pass. -/
def FlagLeftOver (s : TxState) : Prop := s.handled ∈ s.used

def PassesWait {H : Type} (s : TxState) (e : TxEvent H) : Prop :=
  e = .main ∧ s.pc = .wait ∧ s.usart3TxDmaStatus ≠ 0

/-- The flag is set by a completion, and calls have passed on different completions. -/
structure HandshakeInv (s : TxState) : Prop where
  set_handled : s.usart3TxDmaStatus ≠ 0 → 1 ≤ s.handled
  used_range : ∀ n ∈ s.used, 1 ≤ n ∧ n ≤ s.handled
  used_nodup : s.used.Nodup

namespace HandshakeInv

variable {s : TxState}

theorem holds (h : HandshakeInv s) : HandshakeHolds s := by
  refine ⟨?_, h.used_nodup⟩
  have hsub : s.used ⊆ (List.range (s.handled + 1)).tail := by
    intro n hn
    obtain ⟨hlow, hhigh⟩ := h.used_range n hn
    rw [List.range_succ_eq_map, List.tail_cons, List.mem_map]
    exact ⟨n - 1, List.mem_range.mpr (by omega), by omega⟩
  have hlen := (h.used_nodup.subperm hsub).length_le
  simpa using hlen

/-- A step that leaves flag and log alone keeps the invariant. -/
theorem of_eq {t : TxState} (h : HandshakeInv s) (hstatus : t.usart3TxDmaStatus = s.usart3TxDmaStatus)
    (hhandled : t.handled = s.handled) (hused : t.used = s.used) : HandshakeInv t := by
  refine ⟨?_, ?_, ?_⟩
  · rw [hstatus, hhandled]
    exact h.set_handled
  · rw [hused, hhandled]
    exact h.used_range
  · rw [hused]
    exact h.used_nodup

theorem irq (h : HandshakeInv s) : HandshakeInv (dma1Channel2IRQHandler s) := by
  rw [dma1Channel2IRQHandler]
  split_ifs with hfdt2
  · refine ⟨fun _ => Nat.le_add_left 1 s.handled, fun n hn => ?_, h.used_nodup⟩
    obtain ⟨hlow, hhigh⟩ := h.used_range n hn
    exact ⟨hlow, Nat.le_succ_of_le hhigh⟩
  · exact h

/-- Passing the wait logs the completion that last set the flag. -/
theorem mainStep_used (size : UInt8) (data : ℕ → ℕ → UInt32) (hwait : s.pc = .wait)
    (hset : s.usart3TxDmaStatus ≠ 0) : (mainStep size data s).used = s.used ++ [s.handled] := by
  simp only [mainStep, hwait, if_neg hset]

theorem main (size : UInt8) (data : ℕ → ℕ → UInt32) (h : HandshakeInv s)
    (hfresh : s.pc = .wait → s.usart3TxDmaStatus ≠ 0 → ¬FlagLeftOver s) : HandshakeInv (mainStep size data s) := by
  cases hpc : s.pc with
  | idle => exact h.of_eq (by rw [mainStep, hpc]) (by rw [mainStep, hpc]) (by rw [mainStep, hpc])
  | copy i =>
      simp only [mainStep, hpc]
      split_ifs <;> exact h.of_eq rfl rfl rfl
  | tail k => exact h.of_eq (by rw [mainStep, hpc]) (by rw [mainStep, hpc]) (by rw [mainStep, hpc])
  | enable => exact h.of_eq (by rw [mainStep, hpc]) (by rw [mainStep, hpc]) (by rw [mainStep, hpc])
  | wait =>
      simp only [mainStep, hpc]
      split_ifs with hclear
      · exact h
      · refine ⟨h.set_handled, fun n hn => ?_, ?_⟩
        · rcases List.mem_append.mp hn with hn | hn
          · exact h.used_range n hn
          · rw [List.mem_singleton.mp hn]
            exact ⟨h.set_handled hclear, le_rfl⟩
        · refine List.nodup_append.mpr ⟨h.used_nodup, List.nodup_singleton _, fun n hn m hm heq => ?_⟩
          rw [heq, List.mem_singleton.mp hm] at hn
          exact hfresh hpc hclear hn

end HandshakeInv

/-- **The handshake.** Whatever the channel does, the runs in which no completion serves two calls are
those in which no call passes the wait on a flag left over from an earlier call. -/
theorem handshake_iff_no_left_over {H : Type} (hardware : H → (ℕ → UInt8) → DmaChannel → DmaChannel) (size : UInt8)
    (data : ℕ → ℕ → UInt32) (mem : ℕ → UInt8) (channel : DmaChannel) (events : List (TxEvent H)) :
    Throughout (txStep hardware size data) HandshakeHolds (.start mem channel) events ↔
      Along (txStep hardware size data) (fun s e => PassesWait s e → ¬FlagLeftOver s) (.start mem channel) events := by
  refine throughout_iff_along HandshakeInv (fun s h => h.holds) ?_ ?_ ?_ events
  · intro s e h hc
    cases e with
    | main => exact h.main size data fun hwait hset => hc ⟨rfl, hwait, hset⟩
    | irq => exact h.irq
    | hardware k => exact h.of_eq rfl rfl rfl
  · intro s e h hc hholds
    obtain ⟨⟨rfl, hwait, hset⟩, hleft⟩ := Classical.not_imp.mp hc
    have hnodup := hholds.2
    rw [txStep, HandshakeInv.mainStep_used size data hwait hset, List.nodup_append] at hnodup
    exact hnodup.2.2 s.handled (not_not.mp hleft) s.handled (List.mem_singleton_self _) rfl
  · exact ⟨fun h => absurd rfl h, fun n hn => (nomatch hn), List.nodup_nil⟩

/-- One completion, then two whole calls: both pass the wait. -/
theorem handshake_broken_by_second_call :
    let data : ℕ → ℕ → UInt32 := fun _ _ => 0
    let channel : DmaChannel := ⟨true, 0, 0, true, []⟩
    let hardware : Empty → (ℕ → UInt8) → DmaChannel → DmaChannel := fun h => h.elim
    let s := run (txStep hardware 3 data) (.start (fun _ => 0) channel) (.irq :: List.replicate 40 .main)
    s.handled = 1 ∧ s.used = [1, 1] ∧ ¬s.used.length ≤ s.handled := by
  decide +kernel

end FocFirmware
