import FocFirmware.ClockTree
import Mathlib.Tactic.FinCases
import Mathlib.Tactic.Linarith
import Mathlib.Tactic.Ring

/-! The baud rate of `usart_init`. The divisor is computed in tenths and rounded by hand; it is the nearest
one there is to the clock of the tree whenever the rounded quotient fits the 16 bits of its field. -/

namespace FocFirmware

open BitField Runs

/-- The UARTs of the device. -/
inductive UsartName where
  | usart1
  | usart2
  | usart3
  | uart4
  | uart5
  | usart6
  | uart7
  deriving DecidableEq

/-- `usart_data_bit_num_type` and `usart_stop_bit_num_type`. -/
inductive UsartDataBit where
  | bits8
  | bits9
  deriving DecidableEq

def UsartDataBit.value : UsartDataBit → ℕ
  | .bits8 => 0x00
  | .bits9 => 0x01

inductive UsartStopBit where
  | stop1
  | stop0_5
  | stop2
  | stop1_5
  deriving DecidableEq

def UsartStopBit.value : UsartStopBit → ℕ
  | .stop1 => 0x00
  | .stop0_5 => 0x01
  | .stop2 => 0x02
  | .stop1_5 => 0x03

/-- The registers of `usart_type` that `usart_init` writes. -/
structure Usart where
  baudr : BitVec 32
  ctrl1 : BitVec 32
  ctrl2 : BitVec 32

namespace UsartBit

def div : Field := ⟨0, 16⟩
def dbn : Field := ⟨12, 1⟩
def stopbn : Field := ⟨12, 2⟩

end UsartBit

/-- The clock of a UART. -/
def usartClock (clocksFreq : CrmClocksFreq) (usartX : UsartName) : UInt32 :=
  if usartX = .usart1 ∨ usartX = .usart6 ∨ usartX = .uart7 then clocksFreq.apb2Freq else clocksFreq.apb1Freq

/-- The divisor of `usart_init`. -/
def usartDivisor (apbClock baudRate : UInt32) : UInt32 :=
  let tempVal := apbClock * 10 / baudRate
  if tempVal % 10 < 5 then tempVal / 10 else tempVal / 10 + 1

def usartInit (r : Crm) (usartX : UsartName) (baudRate : UInt32) (dataBit : UsartDataBit) (stopBit : UsartStopBit)
    (u : Usart) : Usart :=
  let apbClock := usartClock (crmClocksFreqGet r) usartX
  { u with
    baudr := UsartBit.div.set (usartDivisor apbClock baudRate).toNat u.baudr
    ctrl1 := UsartBit.dbn.set dataBit.value u.ctrl1
    ctrl2 := UsartBit.stopbn.set stopBit.value u.ctrl2 }

namespace ClockTree

def usartFreq (t : ClockTree) (usartX : UsartName) : ℕ :=
  if usartX = .usart1 ∨ usartX = .usart6 ∨ usartX = .uart7 then t.apb2Freq else t.apb1Freq

end ClockTree

section Rounding

variable {f b : ℕ}

/-- The quotient to the nearest, halves up, as the source computes it from tenths. -/
theorem rounded_tenths (hb : 0 < b) :
    (if f * 10 / b % 10 < 5 then f * 10 / b / 10 else f * 10 / b / 10 + 1) = (2 * f + b) / (2 * b) := by
  have hsplit : f * 10 = b * (10 * (f / b)) + 10 * (f % b) := by
    have hf := Nat.div_add_mod f b
    calc f * 10 = (b * (f / b) + f % b) * 10 := by rw [hf]
      _ = b * (10 * (f / b)) + 10 * (f % b) := by ring
  have hrest := Nat.mod_lt f hb
  have htenth : 10 * (f % b) / b < 10 := by
    rw [Nat.div_lt_iff_lt_mul hb]
    omega
  have htemp : f * 10 / b = 10 * (f / b) + 10 * (f % b) / b := by
    rw [hsplit, Nat.mul_add_div hb]
  have hdouble : 2 * f + b = 2 * b * (f / b) + (2 * (f % b) + b) := by
    have hf := Nat.div_add_mod f b
    calc 2 * f + b = 2 * (b * (f / b) + f % b) + b := by rw [hf]
      _ = 2 * b * (f / b) + (2 * (f % b) + b) := by ring
  have hlow : 10 * (f % b) / b < 5 ↔ 2 * (f % b) < b := by
    rw [Nat.div_lt_iff_lt_mul hb]
    omega
  rw [htemp, hdouble, Nat.mul_add_div (by omega : 0 < 2 * b)]
  generalize 10 * (f % b) / b = tenth at htenth hlow ⊢
  generalize f / b = whole
  have hmod : (10 * whole + tenth) % 10 = tenth := by omega
  have hdiv : (10 * whole + tenth) / 10 = whole := by omega
  rw [hmod, hdiv]
  split_ifs with hround
  · rw [Nat.div_eq_of_lt (by omega), add_zero]
  · congr 1
    symm
    rw [Nat.div_eq_iff (by omega)]
    omega

/-- How far the clock is from a whole number of periods of the rate. -/
def divisorError (f b d : ℕ) : ℕ := ((f : ℤ) - d * b).natAbs

/-- No divisor comes closer, and the error is at most half a period. -/
structure NearestDivisor (f b d : ℕ) : Prop where
  closest : ∀ d', divisorError f b d ≤ divisorError f b d'
  within_half : 2 * divisorError f b d ≤ b

/-- Twice the error of the rounded quotient, with its sign. -/
theorem rounded_error (hb : 0 < b) :
    -(b : ℤ) < 2 * (f - ((2 * f + b) / (2 * b) : ℕ) * b) + 1 ∧ 2 * (f - ((2 * f + b) / (2 * b) : ℕ) * b) ≤ (b : ℤ) := by
  have hle := Nat.div_mul_le_self (2 * f + b) (2 * b)
  have hlt := Nat.lt_div_mul_add (a := 2 * f + b) (b := 2 * b) (by omega)
  generalize (2 * f + b) / (2 * b) = q at hle hlt ⊢
  zify at hle hlt
  constructor <;> linarith

theorem rounded_nearest (hb : 0 < b) : NearestDivisor f b ((2 * f + b) / (2 * b)) := by
  obtain ⟨hlow, hhigh⟩ := rounded_error (f := f) hb
  generalize (2 * f + b) / (2 * b) = q at hlow hhigh ⊢
  have hpos : (0 : ℤ) < b := by exact_mod_cast hb
  refine ⟨fun d => ?_, ?_⟩
  · unfold divisorError
    rcases lt_trichotomy d q with hlt | rfl | hgt
    · have hmul : ((d : ℤ) + 1) * b ≤ q * b := mul_le_mul_of_nonneg_right (by exact_mod_cast hlt) hpos.le
      rw [add_mul, one_mul] at hmul
      omega
    · exact le_rfl
    · have hmul : ((q : ℤ) + 1) * b ≤ d * b := mul_le_mul_of_nonneg_right (by exact_mod_cast hgt) hpos.le
      rw [add_mul, one_mul] at hmul
      omega
  · unfold divisorError
    omega

/-- A quotient cut to the field is the nearest one only where nothing is cut off. -/
theorem cut_nearest_iff (hb : 0 < b) :
    NearestDivisor f b ((2 * f + b) / (2 * b) % 2 ^ UsartBit.div.width) ↔ 2 * f + b < 131072 * b := by
  have hlt : (2 * f + b) / (2 * b) < 65536 ↔ 2 * f + b < 131072 * b := by
    rw [Nat.div_lt_iff_lt_mul (by omega), ← mul_assoc]
    exact Iff.rfl
  rw [← hlt, show 2 ^ UsartBit.div.width = 65536 from rfl]
  constructor
  · intro hnearest
    by_contra hlarge
    obtain ⟨hlow, -⟩ := rounded_error (f := f) hb
    have hhalf := hnearest.within_half
    generalize (2 * f + b) / (2 * b) = q at hlow hlarge hhalf
    have hcut : q % 65536 + 65536 ≤ q := by omega
    generalize q % 65536 = d at hcut hhalf
    have hmul : ((d : ℤ) + 65536) * b ≤ q * b :=
      mul_le_mul_of_nonneg_right (by exact_mod_cast hcut) (Int.natCast_nonneg b)
    rw [add_mul] at hmul
    unfold divisorError at hhalf
    omega
  · intro hsmall
    rw [Nat.mod_eq_of_lt hsmall]
    exact rounded_nearest hb

end Rounding

section Divisor

variable {r : Crm} {t : ClockTree}

theorem usartClock_toNat (h : Represents r t) (usartX : UsartName) :
    (usartClock (crmClocksFreqGet r) usartX).toNat = t.usartFreq usartX := by
  have hfreqs := crmClocksFreqGet_eq h
  simp only [CrmClocksFreq.toTree, ClockTree.freqs, Prod.mk.injEq] at hfreqs
  obtain ⟨-, -, hapb2, hapb1, -⟩ := hfreqs
  unfold usartClock ClockTree.usartFreq
  split_ifs
  · exact hapb2
  · exact hapb1

theorem usartDivisor_toNat {apbClock baudRate : UInt32} (hclock : apbClock.toNat * 10 < 2 ^ 32)
    (hbaud : 0 < baudRate.toNat) :
    (usartDivisor apbClock baudRate).toNat = (2 * apbClock.toNat + baudRate.toNat) / (2 * baudRate.toNat) := by
  have htemp : (apbClock * 10 / baudRate).toNat = apbClock.toNat * 10 / baudRate.toNat := by
    rw [UInt32.toNat_div, UInt32.toNat_mul]
    exact congrArg (· / _) (Nat.mod_eq_of_lt hclock)
  have hle : apbClock.toNat * 10 / baudRate.toNat < 2 ^ 32 := (Nat.div_le_self _ _).trans_lt hclock
  have hlow : apbClock * 10 / baudRate % 10 < 5 ↔ apbClock.toNat * 10 / baudRate.toNat % 10 < 5 := by
    rw [UInt32.lt_iff_toNat_lt, UInt32.toNat_mod, htemp]
    rfl
  have hdiv : (apbClock * 10 / baudRate / 10).toNat = apbClock.toNat * 10 / baudRate.toNat / 10 := by
    rw [UInt32.toNat_div, htemp]
    rfl
  rw [← rounded_tenths hbaud]
  unfold usartDivisor
  simp only [hlow]
  split_ifs
  · exact hdiv
  · rw [UInt32.toNat_add, hdiv]
    exact Nat.mod_eq_of_lt (by
      change _ + 1 < 2 ^ 32
      omega)

theorem usartInit_div (h : Represents r t) {usartX : UsartName} {baudRate : UInt32}
    (hclock : t.usartFreq usartX * 10 < 2 ^ 32) (hbaud : 0 < baudRate.toNat) (dataBit : UsartDataBit)
    (stopBit : UsartStopBit) (u : Usart) :
    UsartBit.div.get (usartInit r usartX baudRate dataBit stopBit u).baudr =
      (2 * t.usartFreq usartX + baudRate.toNat) / (2 * baudRate.toNat) % 2 ^ UsartBit.div.width := by
  have hfreq := usartClock_toNat h usartX
  rw [← hfreq] at hclock ⊢
  rw [← usartDivisor_toNat hclock hbaud]
  exact Field.get_set_same (by decide) _ _

end Divisor

/-- **The baud rate.** In every clock tree that the driver calls can build after `crm_reset`, with a bus
clock whose tenfold fits a word, `usart_init` writes the low 16 bits of the rounded quotient; this is the divisor
nearest to the requested rate exactly when nothing is cut off. -/
theorem usart_divisor_nearest_iff (polls : ℕ → ClockPoll) (fuel : ℕ) (start s : ClockBoard)
    (hreset : crmReset polls fuel start = some s) (events : List ClockEvent) (usartX : UsartName) (baudRate : UInt32)
    (hclock : (run ClockTree.exec (ClockTree.atReset start.crm) events).usartFreq usartX * 10 < 2 ^ 32)
    (hbaud : 0 < baudRate.toNat) (dataBit : UsartDataBit) (stopBit : UsartStopBit) (u : Usart) :
    let f := (run ClockTree.exec (ClockTree.atReset start.crm) events).usartFreq usartX
    let d := UsartBit.div.get (usartInit (run Crm.exec s.crm events) usartX baudRate dataBit stopBit u).baudr
    d = (2 * f + baudRate.toNat) / (2 * baudRate.toNat) % 65536 ∧
      (NearestDivisor f baudRate.toNat d ↔ 2 * f + baudRate.toNat < 131072 * baudRate.toNat) := by
  intro f d
  have hrun := run_related Represents (fun _ _ e h => exec_represents h e) (crmReset_represents hreset) events
  have hdiv : d = _ := usartInit_div hrun hclock hbaud dataBit stopBit u
  rw [hdiv]
  exact ⟨rfl, cut_nearest_iff hbaud⟩

/-- With the HEXT as system clock, undivided: 1200 baud fit, 100 baud do not. -/
theorem usart_divisor_nearest_iff_on_hext :
    let start : ClockBoard := ⟨⟨0, 0, 0, 0, 0, 0, 0⟩, 0⟩
    let events : List ClockEvent := [.sysclkSwitch .hext, .poll .settled]
    ∃ s, crmReset (fun _ => .settled) 1 start = some s ∧ ∀ baudRate ∈ [(1200 : UInt32), 100],
      let d := UsartBit.div.get (usartInit (run Crm.exec s.crm events) .usart3 baudRate .bits8 .stop1 ⟨0, 0, 0⟩).baudr
      d = (2 * 8000000 + baudRate.toNat) / (2 * baudRate.toNat) % 65536 ∧
        (NearestDivisor 8000000 baudRate.toNat d ↔ 2 * 8000000 + baudRate.toNat < 131072 * baudRate.toNat) := by
  refine ⟨_, rfl, fun baudRate hmem => ?_⟩
  have hbaud : 0 < baudRate.toNat := by
    fin_cases hmem <;> decide
  exact usart_divisor_nearest_iff (fun _ => .settled) 1 ⟨⟨0, 0, 0, 0, 0, 0, 0⟩, 0⟩ _ rfl
    [.sysclkSwitch .hext, .poll .settled] .usart3 baudRate (by decide) hbaud .bits8 .stop1 ⟨0, 0, 0⟩

end FocFirmware
