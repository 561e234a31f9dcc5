import FocFirmware.Config

/-! The MT6701 driver of `mt6701.c`. The SPI peripheral with its chip select is a parameter: the
driver sees only the answers to its register accesses, so the results hold of every pattern of
status flags and received bytes. -/

namespace FocFirmware

/-- Transmit data buffer empty and receive data buffer full. -/
inductive SpiFlag where
  | tdbe
  | rdbf
  deriving DecidableEq

/-- The register accesses of the driver, on a peripheral with state `σ`. -/
structure SpiDevice (σ : Type) where
  /-- `spi_i2s_flag_get`, `true` for SET. -/
  flagGet : SpiFlag → σ → Bool × σ
  dataTransmit : UInt16 → σ → σ
  dataReceive : σ → UInt16 × σ
  csLow : σ → σ
  csHigh : σ → σ

/-- The three ways through `Mt6701SpiReadByte`. -/
inductive ReadPath where
  | tdbeTimeout
  | rdbfTimeout
  | received (byte : UInt8)
  deriving DecidableEq

/-- What `Mt6701SpiReadByte` returns: a timeout looks like a received zero. -/
def ReadPath.byte : ReadPath → UInt8
  | .tdbeTimeout => 0
  | .rdbfTimeout => 0
  | .received byte => byte

namespace SpiDevice

variable {σ : Type} (dev : SpiDevice σ)

/-- A wait loop, with `left` passes of `++retry > 10` still to come before it gives up. -/
def waitFlag (flag : SpiFlag) : ℕ → σ → Bool × σ
  | 0, s => dev.flagGet flag s
  | left + 1, s =>
      match dev.flagGet flag s with
      | (true, s') => (true, s')
      | (false, s') => waitFlag flag left s'

/-- `Mt6701SpiReadByte`, with the way it returned. -/
def readByte (s : σ) : ReadPath × σ :=
  match dev.waitFlag .tdbe 10 s with
  | (false, s) => (.tdbeTimeout, s)
  | (true, s) =>
      match dev.waitFlag .rdbf 10 (dev.dataTransmit 0x00 s) with
      | (false, s) => (.rdbfTimeout, s)
      | (true, s) =>
          let (data, s) := dev.dataReceive s
          (.received data.toUInt8, s)

def mt6701SpiReadByte (s : σ) : UInt8 × σ :=
  let (path, s) := dev.readByte s
  (path.byte, s)

/-- The three reads of one frame, in order, with the chip select around them. -/
def readFrame (s : σ) : (ReadPath × ReadPath × ReadPath) × σ :=
  let s := dev.csLow s
  let (path1, s) := dev.readByte s
  let (path2, s) := dev.readByte s
  let (path3, s) := dev.readByte s
  ((path1, path2, path3), dev.csHigh s)

/-- The peripheral after `n` frames. -/
def afterFrames (s : σ) : ℕ → σ
  | 0 => s
  | n + 1 => (dev.readFrame (afterFrames s n)).2

/-- A wait loop ends with the answer of its last poll, in a state that earlier polls lead to. -/
theorem waitFlag_last {R : σ → σ → Prop} (flag : SpiFlag) (hrefl : ∀ s, R s s)
    (hpoll : ∀ s t, R s t → R s (dev.flagGet flag t).2) (left : ℕ) (s : σ) :
    ∃ t, R s t ∧ dev.flagGet flag t = dev.waitFlag flag left s := by
  suffices h : ∀ t, R s t → ∃ t', R s t' ∧ dev.flagGet flag t' = dev.waitFlag flag left t from h s (hrefl s)
  induction left with
  | zero =>
      intro t ht
      exact ⟨t, ht, rfl⟩
  | succ left ih =>
      intro t ht
      have hnext := hpoll s t ht
      cases hget : dev.flagGet flag t with
      | mk set t' =>
          rw [hget] at hnext
          cases set with
          | true => exact ⟨t, ht, by rw [hget, waitFlag, hget]⟩
          | false =>
              rw [waitFlag, hget]
              exact ih t' hnext

end SpiDevice

/-- The upper 14 bits of the three bytes. -/
def mt6701RawData (raw1 raw2 raw3 : UInt8) : ℕ :=
  (raw1.toNat <<< 16 ||| raw2.toNat <<< 8 ||| raw3.toNat) >>> 10

/-- `Mt6701_t`; the peripheral and the pins it names are the `SpiDevice`. -/
structure Mt6701 (K : Type*) where
  angle : K

section Angle

variable {K : Type*} [Field K]

/-- The angle `Mt6701GetAngle` computes from the three bytes: first in degrees, then in radians. -/
def mt6701Angle (raw1 raw2 raw3 : UInt8) : K :=
  let rawData := mt6701RawData raw1 raw2 raw3
  let angleDeg : K := (rawData : K) * 360.0 / 16384.0
  angleDeg * foc2Pi / 360.0

def mt6701GetAngle {σ : Type} (dev : SpiDevice σ) (encoder : Mt6701 K) (s : σ) : K × Mt6701 K × σ :=
  let s := dev.csLow s
  let (raw1, s) := dev.mt6701SpiReadByte s
  let (raw2, s) := dev.mt6701SpiReadByte s
  let (raw3, s) := dev.mt6701SpiReadByte s
  let s := dev.csHigh s
  let encoder := { encoder with angle := mt6701Angle raw1 raw2 raw3 }
  (encoder.angle, encoder, s)

/-- The three bytes the calls of `Mt6701SpiReadByte` in one `Mt6701GetAngle` return. -/
def SpiDevice.frameBytes {σ : Type} (dev : SpiDevice σ) (s : σ) : UInt8 × UInt8 × UInt8 :=
  let paths := (dev.readFrame s).1
  (paths.1.byte, paths.2.1.byte, paths.2.2.byte)

theorem mt6701GetAngle_eq {σ : Type} (dev : SpiDevice σ) (encoder : Mt6701 K) (s : σ) :
    mt6701GetAngle dev encoder s =
      let bytes := dev.frameBytes s
      let angle := mt6701Angle bytes.1 bytes.2.1 bytes.2.2
      (angle, { encoder with angle := angle }, (dev.readFrame s).2) := rfl

end Angle

/-- The word of the three bytes, most significant first. -/
def frameWord (raw1 raw2 raw3 : UInt8) : ℕ := raw1.toNat * 65536 + raw2.toNat * 256 + raw3.toNat

theorem mt6701RawData_eq (raw1 raw2 raw3 : UInt8) :
    mt6701RawData raw1 raw2 raw3 = frameWord raw1 raw2 raw3 / 1024 := by
  have h2 : raw2.toNat < 2 ^ 8 := raw2.toNat_lt
  have h3 : raw3.toNat < 2 ^ 8 := raw3.toNat_lt
  have hlow : raw2.toNat <<< 8 ||| raw3.toNat = raw2.toNat <<< 8 + raw3.toNat :=
    (Nat.shiftLeft_add_eq_or_of_lt h3 _).symm
  have hhigh : raw1.toNat <<< 16 ||| (raw2.toNat <<< 8 + raw3.toNat) =
      raw1.toNat <<< 16 + (raw2.toNat <<< 8 + raw3.toNat) := by
    refine (Nat.shiftLeft_add_eq_or_of_lt ?_ _).symm
    rw [Nat.shiftLeft_eq]
    omega
  rw [mt6701RawData, Nat.or_assoc, hlow, hhigh, Nat.shiftRight_eq_div_pow, Nat.shiftLeft_eq,
    Nat.shiftLeft_eq, frameWord]
  omega

theorem mt6701RawData_lt (raw1 raw2 raw3 : UInt8) : mt6701RawData raw1 raw2 raw3 < 16384 := by
  have h1 := raw1.toNat_lt
  have h2 := raw2.toNat_lt
  have h3 := raw3.toNat_lt
  rw [mt6701RawData_eq, frameWord]
  omega

theorem mt6701Angle_eq {K : Type*} [Field K] [CharZero K] (raw1 raw2 raw3 : UInt8) :
    (mt6701Angle raw1 raw2 raw3 : K) = mt6701RawData raw1 raw2 raw3 * foc2Pi / 16384 := by
  rw [mt6701Angle]
  norm_num
  ring

end FocFirmware
