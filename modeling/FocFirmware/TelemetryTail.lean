import FocFirmware.TelemetryFrame

/-! Where the tail occurs in a frame of three finite floats. It is the encoding of infinity, which no finite
float contains; but its four bytes can be split between two neighbours, the first of which is zero or tiny. -/

namespace FocFirmware

open LittleEndian

/-- The tail as a word: the single float infinity. -/
def tailWord : UInt32 := 0x7F800000

/-- An exponent field below 255. -/
def IsFiniteFloat (w : UInt32) : Prop := w.toNat / 2 ^ 23 % 256 < 255

/-- The four bytes from an offset on are the tail. -/
def TailAt (mem : ℕ → UInt8) (o : ℕ) : Prop := (List.range 4).map (fun k => mem (o + k)) = frameTail

/-- The tail begins at byte `r` of `w` and ends in its neighbour `v`. -/
def SplitTail (w v : UInt32) : ℕ → Prop
  | 1 => w.toNat / 2 ^ 8 = 0x800000 ∧ v.toNat % 2 ^ 8 = 0x7F
  | 2 => w.toNat / 2 ^ 16 = 0 ∧ v.toNat % 2 ^ 16 = 0x7F80
  | 3 => w.toNat / 2 ^ 24 = 0 ∧ v.toNat % 2 ^ 24 = 0x7F8000
  | _ => False

/-- A frame of three floats is four words, the last one infinity. -/
def frameWords (array : ℕ → UInt32) (i : ℕ) : UInt32 := if i < 3 then array i else tailWord

theorem frameTail_eq (k : Fin 4) : frameTail.getD k.val 0 = byteOf tailWord k.val := by
  revert k
  decide

theorem frame_getD_words (array : ℕ → UInt32) {k : ℕ} (hk : k < 16) :
    (frame array 3).getD k 0 = byteAt (frameWords array) k := by
  by_cases hdata : k < 12
  · rw [frame_getD_data array hdata, byteAt, frameWords, if_pos (by omega)]
    rfl
  · have htail := frame_getD_tail array 3 ⟨k - 12, by omega⟩
    rw [frameTail_eq, show 3 * 4 + (k - 12) = k by omega] at htail
    rw [htail, byteAt, frameWords, if_neg (by omega), show k % 4 = k - 12 by omega]

theorem tailAt_iff {mem : ℕ → UInt8} {array : ℕ → UInt32} (hmem : ∀ k < 16, mem k = (frame array 3).getD k 0) {o : ℕ}
    (ho : o ≤ 12) : TailAt mem o ↔ Straddles tailWord (frameWords array (o / 4)) (frameWords array (o / 4 + 1)) (o % 4) := by
  rw [← occurs_iff]
  have hbytes : ∀ k < 4, mem (o + k) = byteAt (frameWords array) (o + k) := by
    intro k hk
    rw [hmem _ (by omega), frame_getD_words array (by omega)]
  have htail : frameTail = (List.range 4).map (byteOf tailWord) := by decide
  rw [TailAt, htail, List.map_inj_left]
  apply forall_congr'
  intro k
  rw [List.mem_range]
  exact imp_congr_right fun hk => by rw [hbytes k hk]

/-- In the data the tail is split between two floats, or it is a float that is not finite. -/
theorem straddles_iff {array : ℕ → UInt32} (hfinite : ∀ i < 3, IsFiniteFloat (array i)) {o : ℕ} (ho : o < 12) :
    Straddles tailWord (frameWords array (o / 4)) (frameWords array (o / 4 + 1)) (o % 4) ↔
      o / 4 < 2 ∧ SplitTail (array (o / 4)) (array (o / 4 + 1)) (o % 4) := by
  have htail : tailWord.toNat = 0x7F800000 := rfl
  have hthis := hfinite (o / 4) (by omega)
  have hw : frameWords array (o / 4) = array (o / 4) := if_pos (by omega)
  have hr : o % 4 < 4 := Nat.mod_lt _ (by decide)
  rw [hw, Straddles, htail]
  rw [IsFiniteFloat] at hthis
  by_cases hlast : o / 4 < 2
  · have hv : frameWords array (o / 4 + 1) = array (o / 4 + 1) := if_pos (by omega)
    rw [hv]
    generalize (array (o / 4)) = w at *
    generalize (array (o / 4 + 1)) = v at *
    generalize o % 4 = r at *
    interval_cases r
    · have haligned : ¬SplitTail w v 0 := id
      refine iff_of_false ?_ fun h => haligned h.2
      omega
    · simp only [SplitTail, hlast, true_and]
      omega
    · simp only [SplitTail, hlast, true_and]
      omega
    · simp only [SplitTail, hlast, true_and]
      omega
  · have hv : frameWords array (o / 4 + 1) = tailWord := if_neg (by omega)
    rw [hv, htail]
    generalize o % 4 = r at *
    interval_cases r <;> omega

/-- **The tail in a frame.** Besides the end of the frame it occurs only where two neighbouring floats share
it, which the words of the two tell. -/
theorem tail_occurrences (data : ℕ → ℕ → UInt32) (s : TxState) (hfinite : ∀ i < 3, IsFiniteFloat (data (s.calls + 1) i)) :
    let t := sending 3 data s 18
    let array := data (s.calls + 1)
    (t.pc = .wait ∧ t.calls = s.calls + 1) ∧ TailAt t.mem 12 ∧
      (∀ o < 12, TailAt t.mem o ↔ o / 4 < 2 ∧ SplitTail (array (o / 4)) (array (o / 4 + 1)) (o % 4)) ∧
      ((∀ o < 12, ¬TailAt t.mem o) ↔ ∀ i < 2, ∀ r, ¬SplitTail (array i) (array (i + 1)) r) := by
  intro t array
  obtain ⟨hpc, hcalls⟩ : t.pc = .wait ∧ t.calls = s.calls + 1 := writes_end 3 data s (by decide)
  have hmem : ∀ k < 16, t.mem k = (frame array 3).getD k 0 := frame_in_buffer 3 data s (by decide) hcalls hpc
  have hoccurs : ∀ o < 12, TailAt t.mem o ↔ o / 4 < 2 ∧ SplitTail (array (o / 4)) (array (o / 4 + 1)) (o % 4) :=
    fun o ho => (tailAt_iff hmem ho.le).trans (straddles_iff hfinite ho)
  refine ⟨⟨hpc, hcalls⟩, ?_, hoccurs, fun hnone i hi r hsplit => ?_, fun hnone o ho htail => ?_⟩
  · rw [tailAt_iff hmem le_rfl]
    exact show Straddles tailWord tailWord tailWord 0 from ⟨by decide, by decide⟩
  · have hr : r < 4 := by
      by_contra hlarge
      obtain ⟨n, rfl⟩ : ∃ n, r = n + 4 := ⟨r - 4, by omega⟩
      exact hsplit
    refine hnone (4 * i + r) (by omega) ((hoccurs _ (by omega)).mpr ?_)
    rw [show (4 * i + r) / 4 = i by omega, show (4 * i + r) % 4 = r by omega]
    exact ⟨hi, hsplit⟩
  · obtain ⟨hi, hsplit⟩ := (hoccurs o ho).mp htail
    exact hnone _ hi _ hsplit

/-- Three floats equal to one. -/
theorem tail_occurrences_of_ones :
    let data : ℕ → ℕ → UInt32 := fun _ _ => 0x3F800000
    let s : TxState := .start (fun _ => 0) channel2Setup
    let t := sending 3 data s 18
    let array := data (s.calls + 1)
    (t.pc = .wait ∧ t.calls = s.calls + 1) ∧ TailAt t.mem 12 ∧
      (∀ o < 12, TailAt t.mem o ↔ o / 4 < 2 ∧ SplitTail (array (o / 4)) (array (o / 4 + 1)) (o % 4)) ∧
      ((∀ o < 12, ¬TailAt t.mem o) ↔ ∀ i < 2, ∀ r, ¬SplitTail (array i) (array (i + 1)) r) :=
  tail_occurrences _ _ fun _ _ => by
    rw [IsFiniteFloat]
    decide

/-- The floats 0, 511/512 and 0: the tail occurs at offset 3. -/
theorem tail_between_zero_and_fraction :
    let data : ℕ → ℕ → UInt32 := fun _ i => if i = 1 then 0x3F7F8000 else 0
    let s : TxState := .start (fun _ => 0) channel2Setup
    (∀ i < 3, IsFiniteFloat (data (s.calls + 1) i)) ∧ TailAt (sending 3 data s 18).mem 3 := by
  intro data s
  refine ⟨fun i _ => ?_, ?_⟩
  · by_cases hone : i = 1
    · rw [show data (s.calls + 1) i = 0x3F7F8000 from if_pos hone, IsFiniteFloat]
      decide
    · rw [show data (s.calls + 1) i = 0 from if_neg hone, IsFiniteFloat]
      decide
  · rw [TailAt]
    decide +kernel

end FocFirmware
