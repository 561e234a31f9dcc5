import FocFirmware.ControlStep

/-! Encoder reads that give up. A call of `Mt6701GetAngle` ends after at most 66 status polls, but a byte
that did not come counts as a received zero, so the angle jumps unless the frame with those zeros has the
code of the last frame that was received whole. -/

namespace FocFirmware

namespace SpiDevice

variable {σ : Type} (dev : SpiDevice σ)

/-- The device with its status polls counted. -/
def counted : SpiDevice (σ × ℕ) where
  flagGet flag s :=
    let (set, t) := dev.flagGet flag s.1
    (set, t, s.2 + 1)
  dataTransmit data s := (dev.dataTransmit data s.1, s.2)
  dataReceive s :=
    let (data, t) := dev.dataReceive s.1
    (data, t, s.2)
  csLow s := (dev.csLow s.1, s.2)
  csHigh s := (dev.csHigh s.1, s.2)

/-- A counted step does what the step does, in so many polls. -/
def CountedWithin {α : Type} (budget : ℕ) (k : ℕ) (plain : α × σ) (count : α × σ × ℕ) : Prop :=
  ∃ k' ≤ k + budget, count = (plain.1, plain.2, k')

theorem waitFlag_counted (flag : SpiFlag) (left : ℕ) (s : σ) (k : ℕ) :
    CountedWithin (left + 1) k (dev.waitFlag flag left s) (dev.counted.waitFlag flag left (s, k)) := by
  induction left generalizing s k with
  | zero => exact ⟨k + 1, le_rfl, rfl⟩
  | succ left ih =>
      cases hget : dev.flagGet flag s with
      | mk set t =>
          have hcounted : dev.counted.flagGet flag (s, k) = (set, t, k + 1) := by simp [counted, hget]
          cases set with
          | false =>
              obtain ⟨k', hk, hcount⟩ := ih t (k + 1)
              refine ⟨k', by omega, ?_⟩
              rw [waitFlag, hcounted, waitFlag, hget]
              exact hcount
          | true =>
              refine ⟨k + 1, by omega, ?_⟩
              rw [waitFlag, hcounted, waitFlag, hget]

/-- Two waits of eleven polls each. -/
theorem readByte_counted (s : σ) (k : ℕ) : CountedWithin 22 k (dev.readByte s) (dev.counted.readByte (s, k)) := by
  obtain ⟨k1, hk1, htdbe⟩ := dev.waitFlag_counted .tdbe 10 s k
  unfold readByte
  rw [htdbe]
  rcases dev.waitFlag .tdbe 10 s with ⟨_ | _, t⟩
  · exact ⟨k1, by omega, rfl⟩
  · obtain ⟨k2, hk2, hrdbf⟩ := dev.waitFlag_counted .rdbf 10 (dev.dataTransmit 0x00 t) k1
    simp only
    rw [show dev.counted.dataTransmit 0x00 (t, k1) = (dev.dataTransmit 0x00 t, k1) from rfl, hrdbf]
    rcases dev.waitFlag .rdbf 10 (dev.dataTransmit 0x00 t) with ⟨_ | _, u⟩
    · exact ⟨k2, by omega, rfl⟩
    · exact ⟨k2, by omega, rfl⟩

theorem readFrame_counted (s : σ) (k : ℕ) : CountedWithin 66 k (dev.readFrame s) (dev.counted.readFrame (s, k)) := by
  obtain ⟨k1, hk1, hread1⟩ := dev.readByte_counted (dev.csLow s) k
  obtain ⟨k2, hk2, hread2⟩ := dev.readByte_counted (dev.readByte (dev.csLow s)).2 k1
  obtain ⟨k3, hk3, hread3⟩ := dev.readByte_counted (dev.readByte (dev.readByte (dev.csLow s)).2).2 k2
  have hlow : dev.counted.csLow (s, k) = (dev.csLow s, k) := rfl
  refine ⟨k3, by omega, ?_⟩
  simp only [readFrame, hlow, hread1, hread2, hread3]
  rfl

end SpiDevice

def ReadPath.isReceived : ReadPath → Bool
  | .received _ => true
  | _ => false

/-- All three reads of a frame returned through the data-received path. -/
def frameReceived (paths : ReadPath × ReadPath × ReadPath) : Bool :=
  paths.1.isReceived && paths.2.1.isReceived && paths.2.2.isReceived

section Frames

variable {σ : Type} (dev : SpiDevice σ) (s : σ)

/-- The 14-bit code of frame `n`, with zeros for the bytes that did not come. -/
def frameCode (n : ℕ) : ℕ :=
  let bytes := dev.frameBytes (dev.afterFrames s n)
  mt6701RawData bytes.1 bytes.2.1 bytes.2.2

/-- Frame `n` was received whole. -/
def receivedAt (n : ℕ) : Bool := frameReceived (dev.readFrame (dev.afterFrames s n)).1

/-- The code of the last frame before frame `n` that was received whole, 0 while there is none. -/
def lastCode : ℕ → ℕ
  | 0 => 0
  | n + 1 => if receivedAt dev s n then frameCode dev s n else lastCode n

/-- The angle of that frame; `g_mt6701` starts with 0. -/
def lastAngle {K : Type*} [Field K] : ℕ → K
  | 0 => 0
  | n + 1 =>
      if receivedAt dev s n then
        let bytes := dev.frameBytes (dev.afterFrames s n)
        mt6701Angle bytes.1 bytes.2.1 bytes.2.2
      else lastAngle n

/-- Frame `n` leaves the angle of the last whole frame: returned, stored, and corrected by `FocContorl`. -/
structure AngleKept (encoder : Mt6701 ℝ) (g : FocGlobals ℝ) (n : ℕ) : Prop where
  returned : (mt6701GetAngle dev encoder (dev.afterFrames s n)).1 = lastAngle dev s n
  stored : (mt6701GetAngle dev encoder (dev.afterFrames s n)).2.1.angle = lastAngle dev s n
  corrected : (focContorl dev encoder g (dev.afterFrames s n)).1.correctedAngle =
    angleGetCorrectedElec g.gZeroOffset (lastAngle dev s n)

theorem frameAngle_eq (encoder : Mt6701 ℝ) (n : ℕ) :
    (mt6701GetAngle dev encoder (dev.afterFrames s n)).1 = (frameCode dev s n : ℝ) * foc2Pi / 16384 :=
  mt6701Angle_eq _ _ _

theorem lastAngle_eq (n : ℕ) : lastAngle dev s n = (lastCode dev s n : ℝ) * foc2Pi / 16384 := by
  induction n with
  | zero => simp [lastAngle, lastCode]
  | succ n ih =>
      simp only [lastAngle, lastCode]
      split_ifs
      · exact mt6701Angle_eq _ _ _
      · exact ih

/-- Different codes are different angles. -/
theorem angleKept_iff (encoder : Mt6701 ℝ) (g : FocGlobals ℝ) (n : ℕ) :
    AngleKept dev s encoder g n ↔ frameCode dev s n = lastCode dev s n := by
  have hturn : (foc2Pi : ℝ) / 16384 ≠ 0 := (div_pos foc2Pi_pos (by norm_num)).ne'
  constructor
  · intro hkept
    have hangle := hkept.returned
    rw [frameAngle_eq, lastAngle_eq, mul_div_assoc, mul_div_assoc] at hangle
    exact_mod_cast mul_right_cancel₀ hturn hangle
  · intro hcode
    have hangle : (mt6701GetAngle dev encoder (dev.afterFrames s n)).1 = lastAngle dev s n := by
      rw [frameAngle_eq, lastAngle_eq, hcode]
    exact ⟨hangle, hangle, congrArg (angleGetCorrectedElec g.gZeroOffset) hangle⟩

end Frames

/-- **Failed transfers.** In every run, frame `n` ends after at most 66 status polls, with the result it has
without the count. If one of its reads gives up, the angle stays that of the last whole frame exactly when
the code with zeros for the missing bytes is that frame's code. -/
theorem failed_transfer_iff {σ : Type} (dev : SpiDevice σ) (s : σ) (encoder : Mt6701 ℝ) (g : FocGlobals ℝ) (n : ℕ) :
    (∃ polls ≤ 66, mt6701GetAngle dev.counted encoder (dev.afterFrames s n, 0) =
      ((mt6701GetAngle dev encoder (dev.afterFrames s n)).1, (mt6701GetAngle dev encoder (dev.afterFrames s n)).2.1,
        (mt6701GetAngle dev encoder (dev.afterFrames s n)).2.2, polls)) ∧
      ((receivedAt dev s n = false → AngleKept dev s encoder g n) ↔
        (receivedAt dev s n = false → frameCode dev s n = lastCode dev s n)) := by
  refine ⟨?_, imp_congr_right fun _ => angleKept_iff dev s encoder g n⟩
  obtain ⟨polls, hpolls, hcount⟩ := dev.readFrame_counted (dev.afterFrames s n) 0
  refine ⟨polls, by omega, ?_⟩
  rw [mt6701GetAngle_eq, mt6701GetAngle_eq, SpiDevice.frameBytes, hcount]
  rfl

/-- Every byte is 255, and after six polls RDBF is never set again. -/
def stallingDevice : SpiDevice ℕ where
  flagGet flag polled :=
    match flag with
    | .tdbe => (true, polled + 1)
    | .rdbf => (decide (polled < 6), polled + 1)
  dataTransmit _ polled := polled
  dataReceive polled := (255, polled)
  csLow polled := polled
  csHigh polled := polled

/-- The first frame has the highest code; in the second all three reads give up, and the angle drops to zero. -/
theorem angle_dropped_by_timeouts :
    let dev := stallingDevice
    let before := dev.afterFrames 0 1
    (dev.readFrame 0).1 = (.received 255, .received 255, .received 255) ∧
      (dev.readFrame before).1 = (.rdbfTimeout, .rdbfTimeout, .rdbfTimeout) ∧
      lastAngle dev 0 1 = (16383 : ℝ) * foc2Pi / 16384 ∧ (mt6701GetAngle dev ⟨(0 : ℝ)⟩ before).1 = 0 ∧
      ∀ encoder g, ¬AngleKept dev 0 encoder g 1 := by
  intro dev before
  have hlast : lastCode dev 0 1 = 16383 := by decide
  have hcode : frameCode dev 0 1 = 0 := by decide
  refine ⟨by decide, by decide, ?_, ?_, fun encoder g hkept => ?_⟩
  · rw [lastAngle_eq, hlast]
    norm_num
  · rw [frameAngle_eq, hcode]
    norm_num
  · rw [angleKept_iff, hlast, hcode] at hkept
    exact absurd hkept (by decide)

end FocFirmware
