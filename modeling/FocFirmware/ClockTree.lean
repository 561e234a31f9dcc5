import FocFirmware.BaseRuns
import FocFirmware.ClockRegisters
import Mathlib.Tactic.IntervalCases

/-! What the clock registers mean. A tree of clocks is configured by the last call for each of its parts,
whatever the calls for the others; the register words follow it through every sequence of calls and every
behaviour of the hardware, and the frequencies that the drivers compute are those of the tree. -/

namespace FocFirmware

open BitField Runs

def CrmAhbDiv.divisor : CrmAhbDiv → ℕ
  | .div1 => 1
  | .div2 => 2
  | .div4 => 4
  | .div8 => 8
  | .div16 => 16
  | .div64 => 64
  | .div128 => 128
  | .div256 => 256
  | .div512 => 512

def CrmApbDiv.divisor : CrmApbDiv → ℕ
  | .div1 => 1
  | .div2 => 2
  | .div4 => 4
  | .div8 => 8
  | .div16 => 16

def CrmAdcDiv.divisor : CrmAdcDiv → ℕ
  | .div2 => 2
  | .div4 => 4
  | .div6 => 6
  | .div8 => 8
  | .div12 => 12
  | .div16 => 16

def CrmHextDiv.divisor : CrmHextDiv → ℕ
  | .div2 => 2
  | .div3 => 3
  | .div4 => 4
  | .div5 => 5

/-- The HEXT feeds the PLL, and does so through its divider. -/
def CrmPllSource.external : CrmPllSource → Bool
  | .hick => false
  | _ => true

def CrmPllSource.divided : CrmPllSource → Bool
  | .hextDiv => true
  | _ => false

/-- What has been asked for each part of the clock tree, and the source the system clock runs from. -/
structure ClockTree where
  selected : CrmSclk
  running : CrmSclk
  pllSource : CrmPllSource
  mult : CrmPllMult
  hextDiv : CrmHextDiv
  hickUndivided : Bool
  hickToSclk : Bool
  ahb : CrmAhbDiv
  apb1 : CrmApbDiv
  apb2 : CrmApbDiv
  adc : CrmAdcDiv

/-- A call that writes the clock registers, or a read of a status bit. -/
inductive ClockEvent where
  | lextBypass (newState : Bool)
  | hextBypass (newState : Bool)
  | hickTrimming (trimValue : UInt8)
  | hickCalibration (caliValue : UInt8)
  | flagClear (flag : CrmIntFlag)
  | rtcClock (value : ℕ)
  | rtcEnable (newState : Bool)
  | clockFailureDetection (newState : Bool)
  | batteryPoweredReset (newState : Bool)
  | interruptEnable (crmInt : BitVec 32) (newState : Bool)
  | sourceEnable (source : CrmClockSource) (newState : Bool)
  | ahbDiv (value : CrmAhbDiv)
  | apb1Div (value : CrmApbDiv)
  | apb2Div (value : CrmApbDiv)
  | adcDiv (divValue : CrmAdcDiv)
  | usbDiv (divValue : ℕ)
  | clockOut (clkout : ℕ)
  | clkoutDiv (clkoutDiv : ℕ)
  | hickDivider (nodiv : Bool)
  | hickSclkFrequency (mhz48 : Bool)
  | usbClockSource (hick : Bool)
  | hextClockDiv (value : CrmHextDiv)
  | autoStepMode (newState : Bool)
  | pllConfig (clockSource : CrmPllSource) (multValue : CrmPllMult) (pllRange : CrmPllOutputRange)
  | sysclkSwitch (value : CrmSclk)
  | poll (poll : ClockPoll)

def Crm.exec (r : Crm) : ClockEvent → Crm
  | .lextBypass newState => crmLextBypass r newState
  | .hextBypass newState => crmHextBypass r newState
  | .hickTrimming trimValue => crmHickClockTrimmingSet r trimValue
  | .hickCalibration caliValue => crmHickClockCalibrationSet r caliValue
  | .flagClear flag => crmFlagClear r flag
  | .rtcClock value => crmRtcClockSelect r value
  | .rtcEnable newState => crmRtcClockEnable r newState
  | .clockFailureDetection newState => crmClockFailureDetectionEnable r newState
  | .batteryPoweredReset newState => crmBatteryPoweredDomainReset r newState
  | .interruptEnable crmInt newState => crmInterruptEnable r crmInt newState
  | .sourceEnable source newState => crmClockSourceEnable r source newState
  | .ahbDiv value => crmAhbDivSet r value
  | .apb1Div value => crmApb1DivSet r value
  | .apb2Div value => crmApb2DivSet r value
  | .adcDiv divValue => crmAdcClockDivSet r divValue
  | .usbDiv divValue => crmUsbClockDivSet r divValue
  | .clockOut clkout => crmClockOutSet r clkout
  | .clkoutDiv clkoutDiv => crmClkoutDivSet r clkoutDiv
  | .hickDivider nodiv => crmHickDividerSelect r nodiv
  | .hickSclkFrequency mhz48 => crmHickSclkFrequencySelect r mhz48
  | .usbClockSource hick => crmUsbClockSourceSelect r hick
  | .hextClockDiv value => crmHextClockDivSet r value
  | .autoStepMode newState => crmAutoStepModeEnable r newState
  | .pllConfig clockSource multValue pllRange => crmPllConfig r clockSource multValue pllRange
  | .sysclkSwitch value => crmSysclkSwitch r value
  | .poll poll => r.sense poll

namespace ClockTree

def exec (t : ClockTree) : ClockEvent → ClockTree
  | .ahbDiv value => { t with ahb := value }
  | .apb1Div value => { t with apb1 := value }
  | .apb2Div value => { t with apb2 := value }
  | .adcDiv divValue => { t with adc := divValue }
  | .hickDivider nodiv => { t with hickUndivided := nodiv }
  | .hickSclkFrequency mhz48 => { t with hickUndivided := true, hickToSclk := mhz48 }
  | .usbClockSource true => { t with hickUndivided := true, hickToSclk := true }
  | .hextClockDiv value => { t with hextDiv := value }
  -- the 48 MHz of the HICK are left undivided for the PLL
  | .pllConfig .hick mult _ => { t with pllSource := .hick, mult := mult, hickUndivided := true }
  | .pllConfig source mult _ => { t with pllSource := source, mult := mult }
  | .sysclkSwitch value => { t with selected := value }
  | .poll poll => if poll.switched then { t with running := t.selected } else t
  | _ => t

/-- In Hz, as all frequencies of the tree. -/
def pllInput (t : ClockTree) : ℕ :=
  match t.pllSource with
  | .hick => 4000000
  | .hext => 8000000
  | .hextDiv => 8000000 / t.hextDiv.divisor

def sclkFreq (t : ClockTree) : ℕ :=
  match t.running with
  | .hick => if t.hickToSclk ∧ t.hickUndivided then 48000000 else 8000000
  | .hext => 8000000
  | .pll => t.pllInput * t.mult.factor

def ahbFreq (t : ClockTree) : ℕ := t.sclkFreq / t.ahb.divisor

def apb1Freq (t : ClockTree) : ℕ := t.ahbFreq / t.apb1.divisor

def apb2Freq (t : ClockTree) : ℕ := t.ahbFreq / t.apb2.divisor

def adcFreq (t : ClockTree) : ℕ := t.apb2Freq / t.adc.divisor

end ClockTree

/-- The register words say what the tree is. -/
structure Represents (r : Crm) (t : ClockTree) : Prop where
  sclksel : CfgBit.sclksel.get r.cfg = t.selected.value
  sclksts : CfgBit.sclksts.get r.cfg = t.running.value
  pllrcs : CfgBit.pllrcs.get r.cfg = bitOf t.pllSource.external
  pllhextdiv : t.pllSource.external = true → CfgBit.pllhextdiv.get r.cfg = bitOf t.pllSource.divided
  pllmultL : CfgBit.pllmultL.get r.cfg = t.mult.value % 16
  pllmultH : CfgBit.pllmultH.get r.cfg = t.mult.value / 16
  hextdiv : Misc3Bit.hextdiv.get r.misc3 = t.hextDiv.value
  hickdiv : Misc1Bit.hickdiv.get r.misc1 = bitOf t.hickUndivided
  hickToSclk : Misc3Bit.hickToSclk.get r.misc3 = bitOf t.hickToSclk
  ahbdiv : CfgBit.ahbdiv.get r.cfg = t.ahb.value
  apb1div : CfgBit.apb1div.get r.cfg = t.apb1.value
  apb2div : CfgBit.apb2div.get r.cfg = t.apb2.value
  adcdivL : CfgBit.adcdivL.get r.cfg = t.adc.value % 4
  adcdivH : CfgBit.adcdivH.get r.cfg = t.adc.value / 4

section Codes

/-! Every code fits its field. -/

theorem CrmSclk.value_sclksel (value : CrmSclk) : value.value % 2 ^ CfgBit.sclksel.width = value.value := by
  cases value <;> rfl

theorem CrmSclk.value_sclksts (value : CrmSclk) : value.value % 2 ^ CfgBit.sclksts.width = value.value := by
  cases value <;> rfl

theorem CrmAhbDiv.value_ahbdiv (value : CrmAhbDiv) : value.value % 2 ^ CfgBit.ahbdiv.width = value.value := by
  cases value <;> rfl

theorem CrmApbDiv.value_apb1div (value : CrmApbDiv) : value.value % 2 ^ CfgBit.apb1div.width = value.value := by
  cases value <;> rfl

theorem CrmApbDiv.value_apb2div (value : CrmApbDiv) : value.value % 2 ^ CfgBit.apb2div.width = value.value := by
  cases value <;> rfl

theorem CrmHextDiv.value_hextdiv (value : CrmHextDiv) :
    value.value % 2 ^ Misc3Bit.hextdiv.width = value.value := by
  cases value <;> rfl

theorem bitOf_mod {f : Field} (hwidth : f.width = 1) (on : Bool) : bitOf on % 2 ^ f.width = bitOf on := by
  rw [hwidth]
  cases on <;> rfl

theorem CrmAdcDiv.value_parts (value : CrmAdcDiv) :
    (value.value &&& 0x03) % 2 ^ CfgBit.adcdivL.width = value.value % 4 ∧
      (value.value >>> 2 &&& 0x01) % 2 ^ CfgBit.adcdivH.width = value.value / 4 := by
  cases value <;> exact ⟨rfl, rfl⟩

theorem CrmPllMult.value_lt (mult : CrmPllMult) : mult.value < 64 := by
  have := mult.le_sixtyFour
  unfold CrmPllMult.value
  split_ifs <;> omega

theorem CrmPllMult.value_parts (mult : CrmPllMult) :
    (mult.value &&& 0x0F) % 2 ^ CfgBit.pllmultL.width = mult.value % 16 ∧
      ((mult.value &&& 0x30) >>> 4) % 2 ^ CfgBit.pllmultH.width = mult.value / 16 := by
  have hparts : ∀ v < 64, (v &&& 0x0F) % 2 ^ CfgBit.pllmultL.width = v % 16 ∧
      ((v &&& 0x30) >>> 4) % 2 ^ CfgBit.pllmultH.width = v / 16 := by decide
  exact hparts _ mult.value_lt

end Codes

section Step

variable {r : Crm} {t : ClockTree}

/-- What leaves the three words alone leaves the tree alone. -/
theorem Represents.same {r' : Crm} (h : Represents r t) (hcfg : r'.cfg = r.cfg) (hmisc1 : r'.misc1 = r.misc1)
    (hmisc3 : r'.misc3 = r.misc3) : Represents r' t := by
  obtain ⟨hsel, hsts, hrcs, hhext, hmultL, hmultH, hhextdiv, hdiv, hto, hahb, hapb1, hapb2, hadcL, hadcH⟩ := h
  rw [← hcfg] at hsel hsts hrcs hhext hmultL hmultH hahb hapb1 hapb2 hadcL hadcH
  rw [← hmisc1] at hdiv
  rw [← hmisc3] at hhextdiv hto
  exact ⟨hsel, hsts, hrcs, hhext, hmultL, hmultH, hhextdiv, hdiv, hto, hahb, hapb1, hapb2, hadcL, hadcH⟩

/-- **One step.** A call changes the part of the tree it is for and no other; a read of a status bit can
only make the switch to the selected source visible. -/
theorem exec_represents (h : Represents r t) (e : ClockEvent) : Represents (r.exec e) (t.exec e) := by
  have hsame : ∀ {r' : Crm}, r'.cfg = r.cfg → r'.misc1 = r.misc1 → r'.misc3 = r.misc3 → Represents r' t := h.same
  obtain ⟨hsel, hsts, hrcs, hhext, hmultL, hmultH, hhextdiv, hdiv, hto, hahb, hapb1, hapb2, hadcL, hadcH⟩ := h
  cases e with
  | lextBypass _ | hextBypass _ | hickTrimming _ | flagClear _ | rtcClock _ | rtcEnable _ | clockFailureDetection _
  | batteryPoweredReset _ => exact hsame rfl rfl rfl
  | interruptEnable _ newState => cases newState <;> exact hsame rfl rfl rfl
  | hickCalibration _ =>
      constructor <;> simp (disch := decide) only [Crm.exec, crmHickClockCalibrationSet, ClockTree.exec,
        Field.get_set_apart, *]
      exact hhext
  | sourceEnable source newState => cases source <;> exact hsame rfl rfl rfl
  | usbDiv _ | clockOut _ | clkoutDiv _ | autoStepMode _ =>
      constructor <;> simp (disch := decide) only [Crm.exec, crmUsbClockDivSet, crmClockOutSet, crmClkoutDivSet,
        crmAutoStepModeEnable, ClockTree.exec, Field.get_set_apart, *]
      exact hhext
  | ahbDiv value =>
      constructor <;> simp (disch := decide) only [Crm.exec, crmAhbDivSet, ClockTree.exec, Field.get_set_apart,
        Field.get_set_same, value.value_ahbdiv, *]
      exact hhext
  | apb1Div value =>
      constructor <;> simp (disch := decide) only [Crm.exec, crmApb1DivSet, ClockTree.exec, Field.get_set_apart,
        Field.get_set_same, value.value_apb1div, *]
      exact hhext
  | apb2Div value =>
      constructor <;> simp (disch := decide) only [Crm.exec, crmApb2DivSet, ClockTree.exec, Field.get_set_apart,
        Field.get_set_same, value.value_apb2div, *]
      exact hhext
  | adcDiv value =>
      constructor <;> simp (disch := decide) only [Crm.exec, crmAdcClockDivSet, ClockTree.exec, Field.get_set_apart,
        Field.get_set_same, value.value_parts, *]
      exact hhext
  | hextClockDiv value =>
      constructor <;> simp (disch := decide) only [Crm.exec, crmHextClockDivSet, ClockTree.exec, Field.get_set_apart,
        Field.get_set_same, value.value_hextdiv, *]
      exact hhext
  | hickDivider nodiv =>
      constructor <;> simp (disch := decide) only [Crm.exec, crmHickDividerSelect, ClockTree.exec,
        Field.get_set_same, bitOf_mod, *]
      exact hhext
  | hickSclkFrequency mhz48 =>
      constructor <;> simp (disch := decide) only [Crm.exec, crmHickSclkFrequencySelect, crmHickDividerSelect,
        ClockTree.exec, Field.get_set_apart, Field.get_set_same, bitOf_mod, *]
      exact hhext
  | usbClockSource hick =>
      cases hick <;> constructor <;> simp (disch := decide) only [Crm.exec, crmUsbClockSourceSelect,
        crmHickSclkFrequencySelect, crmHickDividerSelect, ClockTree.exec, Field.get_set_apart, Field.get_set_same,
        bitOf_mod, if_true, if_false, Bool.false_eq_true, *]
      · exact hhext
      · exact hhext
  | pllConfig source mult range =>
      cases source <;> constructor <;> simp (disch := decide) only [Crm.exec, crmPllConfig, ClockTree.exec,
        Field.get_set_apart, Field.get_set_same, mult.value_parts, bitOf_mod, CrmPllSource.external,
        CrmPllSource.divided, if_true, if_false, reduceCtorEq, Bool.false_eq_true, IsEmpty.forall_iff, implies_true, *]
  | sysclkSwitch value =>
      constructor <;> simp (disch := decide) only [Crm.exec, crmSysclkSwitch, ClockTree.exec, Field.get_set_apart,
        Field.get_set_same, value.value_sclksel, *]
      exact hhext
  | poll poll =>
      rcases hswitched : poll.switched <;> constructor <;> simp (disch := decide) only [Crm.exec, Crm.sense,
        ClockTree.exec, Field.get_set_apart, Field.get_set_same, CrmSclk.value_sclksts, if_true, if_false,
        Bool.false_eq_true, *]
      · exact hhext
      · exact hhext

end Step

section Frequencies

variable {r : Crm} {t : ClockTree}

theorem shiftRight_toNat (a : UInt32) {k : ℕ} (hk : k < 32) : (a >>> UInt32.ofNat k).toNat = a.toNat / 2 ^ k := by
  have hmod : (UInt32.ofNat k).toNat % 32 = k := by
    rw [UInt32.toNat_ofNat']
    omega
  rw [UInt32.toNat_shiftRight, hmod, Nat.shiftRight_eq_div_pow]

theorem CrmAhbDiv.table (d : CrmAhbDiv) :
    sclkAhbDivTable.getD d.value 0 < 32 ∧ 2 ^ sclkAhbDivTable.getD d.value 0 = d.divisor := by
  cases d <;> decide

theorem CrmApbDiv.tables (d : CrmApbDiv) : ahbApb1DivTable = ahbApb2DivTable ∧ ahbApb2DivTable.getD d.value 0 < 32 ∧
    2 ^ ahbApb2DivTable.getD d.value 0 = d.divisor := by
  cases d <;> decide

theorem CrmAdcDiv.table (d : CrmAdcDiv) :
    (UInt32.ofNat (adcDivTable.getD ((d.value / 4) <<< 2 ||| d.value % 4) 0)).toNat = d.divisor := by
  cases d <;> decide

theorem CrmHextDiv.divide (d : CrmHextDiv) : (hextValue / (UInt32.ofNat d.value + 2)).toNat = 8000000 / d.divisor := by
  cases d <;> decide

/-- The decoding of the two fields undoes their encoding, over the gap in the enumeration. -/
theorem crmPllMultGet_toNat (h : Represents r t) : (crmPllMultGet r).toNat = t.mult.factor := by
  have hdecode : ∀ v < 64, v ≠ 14 →
      (if UInt32.ofNat (v / 16) ≠ 0 ∨ UInt32.ofNat (v % 16) = 15 then
          UInt32.ofNat (v % 16) + (16 * UInt32.ofNat (v / 16) + 1)
        else UInt32.ofNat (v % 16) + 2).toNat = if v ≤ 13 then v + 2 else v + 1 := by decide
  have htwo := t.mult.two_le
  have hgap : t.mult.value ≠ 14 := by
    unfold CrmPllMult.value
    split_ifs <;> omega
  simp only [crmPllMultGet, h.pllmultL, h.pllmultH]
  rw [hdecode _ t.mult.value_lt hgap]
  unfold CrmPllMult.value
  split_ifs <;> omega

theorem pllInput_le (t : ClockTree) : t.pllInput ≤ 8000000 := by
  unfold ClockTree.pllInput
  cases t.pllSource with
  | hick =>
      change 4000000 ≤ 8000000
      decide
  | hext => exact le_rfl
  | hextDiv => exact Nat.div_le_self _ _

theorem mul_mult_toNat {a : UInt32} (h : Represents r t) (ha : a.toNat ≤ 8000000) :
    (a * crmPllMultGet r).toNat = a.toNat * t.mult.factor := by
  have hle : a.toNat * t.mult.factor ≤ 8000000 * 64 := Nat.mul_le_mul ha t.mult.le_sixtyFour
  rw [UInt32.toNat_mul, crmPllMultGet_toNat h]
  exact Nat.mod_eq_of_lt (by omega)

theorem crmSclkFreq_toNat (h : Represents r t) : (crmSclkFreq r).toNat = t.sclkFreq := by
  have hinput := pllInput_le t
  unfold crmSclkFreq crmSysclkSwitchStatusGet ClockTree.sclkFreq
  rw [h.sclksts]
  cases t.running with
  | hick =>
      simp only [CrmSclk.value, h.hickToSclk, h.hickdiv]
      cases t.hickToSclk <;> cases t.hickUndivided <;> decide
  | hext => rfl
  | pll =>
      simp only [CrmSclk.value, h.pllrcs]
      have hhext := h.pllhextdiv
      unfold ClockTree.pllInput at hinput ⊢
      cases hsource : t.pllSource with
      | hick => exact mul_mult_toNat h (by decide)
      | hext =>
          rw [hsource] at hhext
          simp only [CrmPllSource.external, hhext rfl]
          exact mul_mult_toNat h (by decide)
      | hextDiv =>
          rw [hsource] at hhext hinput
          simp only [CrmPllSource.external, hhext rfl, h.hextdiv]
          rw [← t.hextDiv.divide] at hinput ⊢
          exact mul_mult_toNat h hinput

theorem systemCoreClockUpdate_toNat (h : Represents r t) : (systemCoreClockUpdate r).toNat = t.ahbFreq := by
  obtain ⟨hshift, hpow⟩ := t.ahb.table
  rw [systemCoreClockUpdate, h.ahbdiv, shiftRight_toNat _ hshift, hpow, crmSclkFreq_toNat h]
  rfl

/-- The frequencies in Hz. -/
def CrmClocksFreq.toTree (clocks : CrmClocksFreq) : ℕ × ℕ × ℕ × ℕ × ℕ :=
  (clocks.sclkFreq.toNat, clocks.ahbFreq.toNat, clocks.apb2Freq.toNat, clocks.apb1Freq.toNat, clocks.adcFreq.toNat)

def ClockTree.freqs (t : ClockTree) : ℕ × ℕ × ℕ × ℕ × ℕ := (t.sclkFreq, t.ahbFreq, t.apb2Freq, t.apb1Freq, t.adcFreq)

theorem crmClocksFreqGet_eq (h : Represents r t) : (crmClocksFreqGet r).toTree = t.freqs := by
  obtain ⟨htables, hshift1, hpow1⟩ := t.apb1.tables
  obtain ⟨-, hshift2, hpow2⟩ := t.apb2.tables
  have hahb := systemCoreClockUpdate_toNat h
  unfold systemCoreClockUpdate at hahb
  have hapb1 : (crmClocksFreqGet r).apb1Freq.toNat = t.apb1Freq := by
    simp only [crmClocksFreqGet, h.apb1div, htables]
    rw [shiftRight_toNat _ hshift1, hpow1, hahb]
    rfl
  have hapb2 : (crmClocksFreqGet r).apb2Freq.toNat = t.apb2Freq := by
    simp only [crmClocksFreqGet, h.apb2div]
    rw [shiftRight_toNat _ hshift2, hpow2, hahb]
    rfl
  have hadc : (crmClocksFreqGet r).adcFreq.toNat = t.adcFreq := by
    rw [ClockTree.adcFreq, ← hapb2, ← t.adc.table, ← h.adcdivH, ← h.adcdivL, ← UInt32.toNat_div]
    rfl
  simp only [CrmClocksFreq.toTree, ClockTree.freqs, hapb1, hapb2, hadc]
  rw [← hahb, ← crmSclkFreq_toNat h]
  rfl

end Frequencies

section Reset

def CrmHextDiv.ofCode : ℕ → CrmHextDiv
  | 0 => .div2
  | 1 => .div3
  | 2 => .div4
  | _ => .div5

theorem CrmHextDiv.value_ofCode {code : ℕ} (hcode : code < 4) : (CrmHextDiv.ofCode code).value = code := by
  interval_cases code <;> rfl

/-- The tree that `crm_reset` leaves. It does not write `misc3`, so two parts stay what they were. -/
def ClockTree.atReset (before : Crm) : ClockTree where
  selected := .hick
  running := .hick
  pllSource := .hick
  mult := ⟨2, le_rfl, by decide⟩
  hextDiv := .ofCode (Misc3Bit.hextdiv.get before.misc3)
  hickUndivided := false
  hickToSclk := Misc3Bit.hickToSclk.get before.misc3 = 1
  ahb := .div1
  apb1 := .div1
  apb2 := .div1
  adc := .div2

theorem represents_atReset {before r : Crm} (hcfg : r.cfg = 0) (hmisc1 : r.misc1 = 0) (hmisc3 : r.misc3 = before.misc3) :
    Represents r (ClockTree.atReset before) := by
  have hhext : Misc3Bit.hextdiv.get before.misc3 < 4 := Field.get_lt _ _
  have hto : Misc3Bit.hickToSclk.get before.misc3 < 2 := Field.get_lt _ _
  constructor <;> simp only [ClockTree.atReset, hcfg, hmisc1, hmisc3, Field.get_zero, CrmHextDiv.value_ofCode hhext]
  · rfl
  · rfl
  · rfl
  · exact fun _ => rfl
  · rfl
  · rfl
  · rfl
  · interval_cases Misc3Bit.hickToSclk.get before.misc3 <;> rfl
  · rfl
  · rfl
  · rfl
  · rfl
  · rfl

section Waits

variable {polls : ℕ → ClockPoll} {ready : Crm → Bool} {fuel : ℕ} {s s' : ClockBoard}

/-- A wait only reads the status, so what these reads keep holds when it ends. -/
theorem waitFor_keeps {inv : Crm → Prop} (hkeep : ∀ r n, inv r → inv (r.sense (polls n)))
    (hwait : s.waitFor polls ready fuel = some s') (h : inv s.crm) : inv s'.crm := by
  induction fuel generalizing s with
  | zero => cases hwait
  | succ fuel ih =>
      simp only [ClockBoard.waitFor] at hwait
      split_ifs at hwait
      · cases hwait
        exact hkeep _ _ h
      · exact ih hwait (hkeep _ _ h)

/-- It ends at a read that shows what it waits for. -/
theorem waitFor_ready (hwait : s.waitFor polls ready fuel = some s') :
    ready s'.crm = true ∧ ∃ (r : Crm) (n : ℕ), s'.crm = r.sense (polls n) := by
  induction fuel generalizing s with
  | zero => cases hwait
  | succ fuel ih =>
      simp only [ClockBoard.waitFor] at hwait
      split_ifs at hwait with hready
      · cases hwait
        exact ⟨hready, s.crm, s.polled, rfl⟩
      · exact ih hwait

end Waits

theorem crmReset_represents {polls : ℕ → ClockPoll} {fuel : ℕ} {start s : ClockBoard} (h : crmReset polls fuel start = some s) :
    Represents s.crm (ClockTree.atReset start.crm) := by
  obtain ⟨s1, h1, h⟩ := Option.bind_eq_some_iff.mp h
  obtain ⟨s2, h2, h⟩ := Option.bind_eq_some_iff.mp h
  have hmisc1 := @waitFor_keeps _ _ _ _ _ (fun r => r.misc3 = start.crm.misc3) (fun _ _ h => h) h1 rfl
  have hmisc3 := @waitFor_keeps _ _ _ _ _ (fun r => r.misc3 = start.crm.misc3) (fun _ _ h => h) h2 hmisc1
  cases h
  exact represents_atReset rfl rfl hmisc3

end Reset

end FocFirmware
