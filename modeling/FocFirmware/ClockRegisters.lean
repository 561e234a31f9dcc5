import FocFirmware.BaseBitField

/-! The clock registers and the functions of `at32f403a_407_crm.c` that write them. The bit-fields of
`crm_type` are fields of register words, so what a write keeps of the other fields follows from where the
fields lie. -/

namespace FocFirmware

open BitField

/-- The registers of `crm_type` that the clock functions use. -/
structure Crm where
  ctrl : BitVec 32
  cfg : BitVec 32
  clkint : BitVec 32
  bpdc : BitVec 32
  ctrlsts : BitVec 32
  misc1 : BitVec 32
  misc3 : BitVec 32
  deriving DecidableEq

namespace CtrlBit

def hicken : Field := ⟨0, 1⟩
def hickstbl : Field := ⟨1, 1⟩
def hicktrim : Field := ⟨2, 6⟩
def hickcal : Field := ⟨8, 8⟩
def hexten : Field := ⟨16, 1⟩
def hextstbl : Field := ⟨17, 1⟩
def hextbyps : Field := ⟨18, 1⟩
def cfden : Field := ⟨19, 1⟩
def pllen : Field := ⟨24, 1⟩
def pllstbl : Field := ⟨25, 1⟩

end CtrlBit

namespace CfgBit

def sclksel : Field := ⟨0, 2⟩
def sclksts : Field := ⟨2, 2⟩
def ahbdiv : Field := ⟨4, 4⟩
def apb1div : Field := ⟨8, 3⟩
def apb2div : Field := ⟨11, 3⟩
def adcdivL : Field := ⟨14, 2⟩
def pllrcs : Field := ⟨16, 1⟩
def pllhextdiv : Field := ⟨17, 1⟩
def pllmultL : Field := ⟨18, 4⟩
def usbdivL : Field := ⟨22, 2⟩
def clkoutSel : Field := ⟨24, 3⟩
def usbdivH : Field := ⟨27, 1⟩
def adcdivH : Field := ⟨28, 1⟩
def pllmultH : Field := ⟨29, 2⟩
def pllrange : Field := ⟨31, 1⟩

end CfgBit

namespace BpdcBit

def lexten : Field := ⟨0, 1⟩
def lextbyps : Field := ⟨2, 1⟩
def rtcsel : Field := ⟨8, 2⟩
def rtcen : Field := ⟨15, 1⟩
def bpdrst : Field := ⟨16, 1⟩

end BpdcBit

namespace CtrlstsBit

def licken : Field := ⟨0, 1⟩
def lickstbl : Field := ⟨1, 1⟩

end CtrlstsBit

namespace Misc1Bit

def hickcalKey : Field := ⟨0, 8⟩
def clkoutSel : Field := ⟨16, 1⟩
def hickdiv : Field := ⟨25, 1⟩
def clkoutdiv : Field := ⟨28, 4⟩

end Misc1Bit

namespace Misc3Bit

def autoStepEn : Field := ⟨4, 2⟩
def hickToUsb : Field := ⟨8, 1⟩
def hickToSclk : Field := ⟨9, 1⟩
def hextdiv : Field := ⟨12, 2⟩

end Misc3Bit

/-- `crm_pll_clock_source_type`. -/
inductive CrmPllSource where
  | hick
  | hext
  | hextDiv
  deriving DecidableEq

/-- `crm_pll_mult_type`: `CRM_PLL_MULT_n` by its `n`. -/
structure CrmPllMult where
  factor : ℕ
  two_le : 2 ≤ factor
  le_sixtyFour : factor ≤ 64
  deriving DecidableEq

/-- The enumeration skips 14. -/
def CrmPllMult.value (mult : CrmPllMult) : ℕ := if mult.factor ≤ 15 then mult.factor - 2 else mult.factor - 1

/-- `crm_pll_output_range_type`. -/
inductive CrmPllOutputRange where
  | le72Mhz
  | gt72Mhz
  deriving DecidableEq

def CrmPllOutputRange.value : CrmPllOutputRange → ℕ
  | .le72Mhz => 0
  | .gt72Mhz => 1

/-- `crm_clock_source_type`. -/
inductive CrmClockSource where
  | hick
  | hext
  | pll
  | lext
  | lick
  deriving DecidableEq

/-- `crm_ahb_div_type`. -/
inductive CrmAhbDiv where
  | div1
  | div2
  | div4
  | div8
  | div16
  | div64
  | div128
  | div256
  | div512
  deriving DecidableEq

def CrmAhbDiv.value : CrmAhbDiv → ℕ
  | .div1 => 0x00
  | .div2 => 0x08
  | .div4 => 0x09
  | .div8 => 0x0A
  | .div16 => 0x0B
  | .div64 => 0x0C
  | .div128 => 0x0D
  | .div256 => 0x0E
  | .div512 => 0x0F

/-- `crm_apb1_div_type` and `crm_apb2_div_type`, which have the same members. -/
inductive CrmApbDiv where
  | div1
  | div2
  | div4
  | div8
  | div16
  deriving DecidableEq

def CrmApbDiv.value : CrmApbDiv → ℕ
  | .div1 => 0x00
  | .div2 => 0x04
  | .div4 => 0x05
  | .div8 => 0x06
  | .div16 => 0x07

/-- `crm_adc_div_type`. -/
inductive CrmAdcDiv where
  | div2
  | div4
  | div6
  | div8
  | div12
  | div16
  deriving DecidableEq

def CrmAdcDiv.value : CrmAdcDiv → ℕ
  | .div2 => 0x00
  | .div4 => 0x01
  | .div6 => 0x02
  | .div8 => 0x03
  | .div12 => 0x05
  | .div16 => 0x07

/-- `crm_hext_div_type`. -/
inductive CrmHextDiv where
  | div2
  | div3
  | div4
  | div5
  deriving DecidableEq

def CrmHextDiv.value : CrmHextDiv → ℕ
  | .div2 => 0x00
  | .div3 => 0x01
  | .div4 => 0x02
  | .div5 => 0x03

/-- `crm_sclk_type`. -/
inductive CrmSclk where
  | hick
  | hext
  | pll
  deriving DecidableEq

def CrmSclk.value : CrmSclk → ℕ
  | .hick => 0x00
  | .hext => 0x01
  | .pll => 0x02

/-- `confirm_state`, and the two-valued `crm_hick_div_6_type`, `crm_hick_sclk_frequency_type` and
`crm_usb_clock_source_type`. -/
def bitOf (on : Bool) : ℕ := if on then 1 else 0

/-- The flags of `clkint` that `crm_flag_clear` clears, by the field it writes. -/
inductive CrmIntFlag where
  | lickReady
  | lextReady
  | hickReady
  | hextReady
  | pllReady
  | clockFailure
  deriving DecidableEq

def CrmIntFlag.field : CrmIntFlag → Field
  | .lickReady => ⟨16, 1⟩
  | .lextReady => ⟨17, 1⟩
  | .hickReady => ⟨18, 1⟩
  | .hextReady => ⟨19, 1⟩
  | .pllReady => ⟨20, 1⟩
  | .clockFailure => ⟨23, 1⟩

section Drivers

variable (r : Crm)

def crmLextBypass (newState : Bool) : Crm := { r with bpdc := BpdcBit.lextbyps.set (bitOf newState) r.bpdc }

def crmHextBypass (newState : Bool) : Crm := { r with ctrl := CtrlBit.hextbyps.set (bitOf newState) r.ctrl }

def crmHickClockTrimmingSet (trimValue : UInt8) : Crm := { r with ctrl := CtrlBit.hicktrim.set trimValue.toNat r.ctrl }

def crmHickClockCalibrationSet (caliValue : UInt8) : Crm :=
  let r := { r with misc1 := Misc1Bit.hickcalKey.set 0x5A r.misc1 }
  { r with ctrl := CtrlBit.hickcal.set caliValue.toNat r.ctrl }

/-- `crm_flag_clear` for the flags of `clkint`. -/
def crmFlagClear (flag : CrmIntFlag) : Crm := { r with clkint := flag.field.set 1 r.clkint }

/-- The values of `crm_rtc_clock_type` are all that fit two bits. -/
def crmRtcClockSelect (value : ℕ) : Crm := { r with bpdc := BpdcBit.rtcsel.set value r.bpdc }

def crmRtcClockEnable (newState : Bool) : Crm := { r with bpdc := BpdcBit.rtcen.set (bitOf newState) r.bpdc }

def crmClockFailureDetectionEnable (newState : Bool) : Crm := { r with ctrl := CtrlBit.cfden.set (bitOf newState) r.ctrl }

def crmBatteryPoweredDomainReset (newState : Bool) : Crm := { r with bpdc := BpdcBit.bpdrst.set (bitOf newState) r.bpdc }

def crmInterruptEnable (crmInt : BitVec 32) (newState : Bool) : Crm :=
  if newState then { r with clkint := r.clkint ||| crmInt } else { r with clkint := r.clkint &&& ~~~crmInt }

def crmClockSourceEnable (source : CrmClockSource) (newState : Bool) : Crm :=
  match source with
  | .hick => { r with ctrl := CtrlBit.hicken.set (bitOf newState) r.ctrl }
  | .hext => { r with ctrl := CtrlBit.hexten.set (bitOf newState) r.ctrl }
  | .pll => { r with ctrl := CtrlBit.pllen.set (bitOf newState) r.ctrl }
  | .lext => { r with bpdc := BpdcBit.lexten.set (bitOf newState) r.bpdc }
  | .lick => { r with ctrlsts := CtrlstsBit.licken.set (bitOf newState) r.ctrlsts }

def crmAhbDivSet (value : CrmAhbDiv) : Crm := { r with cfg := CfgBit.ahbdiv.set value.value r.cfg }

def crmApb1DivSet (value : CrmApbDiv) : Crm := { r with cfg := CfgBit.apb1div.set value.value r.cfg }

def crmApb2DivSet (value : CrmApbDiv) : Crm := { r with cfg := CfgBit.apb2div.set value.value r.cfg }

def crmAdcClockDivSet (divValue : CrmAdcDiv) : Crm :=
  { r with cfg := CfgBit.adcdivH.set (divValue.value >>> 2 &&& 0x01) (CfgBit.adcdivL.set (divValue.value &&& 0x03) r.cfg) }

/-- The values of `crm_usb_div_type` are all that fit three bits but one. -/
def crmUsbClockDivSet (divValue : ℕ) : Crm :=
  { r with cfg := CfgBit.usbdivH.set (divValue >>> 2 &&& 0x01) (CfgBit.usbdivL.set (divValue &&& 0x03) r.cfg) }

def crmClockOutSet (clkout : ℕ) : Crm :=
  { r with
    cfg := CfgBit.clkoutSel.set (clkout &&& 0x7) r.cfg
    misc1 := Misc1Bit.clkoutSel.set (clkout >>> 3 &&& 0x1) r.misc1 }

def crmClkoutDivSet (clkoutDiv : ℕ) : Crm := { r with misc1 := Misc1Bit.clkoutdiv.set clkoutDiv r.misc1 }

def crmHickDividerSelect (nodiv : Bool) : Crm := { r with misc1 := Misc1Bit.hickdiv.set (bitOf nodiv) r.misc1 }

def crmHickSclkFrequencySelect (mhz48 : Bool) : Crm :=
  let r := crmHickDividerSelect r true
  { r with misc3 := Misc3Bit.hickToSclk.set (bitOf mhz48) r.misc3 }

def crmUsbClockSourceSelect (hick : Bool) : Crm :=
  let r := if hick then crmHickSclkFrequencySelect r true else r
  { r with misc3 := Misc3Bit.hickToUsb.set (bitOf hick) r.misc3 }

def crmHextClockDivSet (value : CrmHextDiv) : Crm := { r with misc3 := Misc3Bit.hextdiv.set value.value r.misc3 }

/-- `CRM_AUTO_STEP_MODE_ENABLE` is 3. -/
def crmAutoStepModeEnable (newState : Bool) : Crm :=
  { r with misc3 := Misc3Bit.autoStepEn.set (if newState then 0x03 else 0x00) r.misc3 }

def crmPllConfig (clockSource : CrmPllSource) (multValue : CrmPllMult) (pllRange : CrmPllOutputRange) : Crm :=
  let r :=
    if clockSource = .hick then
      let r := { r with cfg := CfgBit.pllrcs.set (bitOf false) r.cfg }
      { r with misc1 := Misc1Bit.hickdiv.set (bitOf true) r.misc1 }
    else
      let r := { r with cfg := CfgBit.pllrcs.set (bitOf true) r.cfg }
      if clockSource = .hext then { r with cfg := CfgBit.pllhextdiv.set (bitOf false) r.cfg }
      else { r with cfg := CfgBit.pllhextdiv.set (bitOf true) r.cfg }
  let r := { r with cfg := CfgBit.pllmultL.set (multValue.value &&& 0x0F) r.cfg }
  let r := { r with cfg := CfgBit.pllmultH.set ((multValue.value &&& 0x30) >>> 4) r.cfg }
  { r with cfg := CfgBit.pllrange.set pllRange.value r.cfg }

def crmSysclkSwitch (value : CrmSclk) : Crm := { r with cfg := CfgBit.sclksel.set value.value r.cfg }

def crmSysclkSwitchStatusGet : ℕ := CfgBit.sclksts.get r.cfg

/-- What the hardware shows at one read of a status bit: which clocks are stable, and whether the system
clock has been switched to the selected source by then. -/
@[ext] structure ClockPoll where
  hick : Bool
  hext : Bool
  pll : Bool
  lick : Bool
  switched : Bool

/-- All clocks are stable and the switch is made. -/
def ClockPoll.settled : ClockPoll := ⟨true, true, true, true, true⟩

/-- The status bits, which only the hardware writes. -/
def Crm.sense (poll : ClockPoll) : Crm :=
  { r with
    ctrl := CtrlBit.pllstbl.set (bitOf poll.pll)
      (CtrlBit.hextstbl.set (bitOf poll.hext) (CtrlBit.hickstbl.set (bitOf poll.hick) r.ctrl))
    ctrlsts := CtrlstsBit.lickstbl.set (bitOf poll.lick) r.ctrlsts
    cfg := if poll.switched then CfgBit.sclksts.set (CfgBit.sclksel.get r.cfg) r.cfg else r.cfg }

end Drivers

/-- `HICK_VALUE` and `HEXT_VALUE`. -/
def hickValue : UInt32 := 8000000

def hextValue : UInt32 := 8000000

/-- `crm_clocks_freq_type`. -/
structure CrmClocksFreq where
  sclkFreq : UInt32
  ahbFreq : UInt32
  apb2Freq : UInt32
  apb1Freq : UInt32
  adcFreq : UInt32
  deriving DecidableEq

def sclkAhbDivTable : List ℕ := [0, 0, 0, 0, 0, 0, 0, 0, 1, 2, 3, 4, 6, 7, 8, 9]

def ahbApb1DivTable : List ℕ := [0, 0, 0, 0, 1, 2, 3, 4]

def ahbApb2DivTable : List ℕ := [0, 0, 0, 0, 1, 2, 3, 4]

def adcDivTable : List ℕ := [2, 4, 6, 8, 2, 12, 8, 16]

section Frequencies

variable (r : Crm)

/-- The multiplier that the two fields of the PLL stand for. -/
def crmPllMultGet : UInt32 :=
  let pllMult := UInt32.ofNat (CfgBit.pllmultL.get r.cfg)
  let pllMultH := UInt32.ofNat (CfgBit.pllmultH.get r.cfg)
  if pllMultH ≠ 0 ∨ pllMult = 15 then pllMult + (16 * pllMultH + 1) else pllMult + 2

/-- The `switch` over the source of the system clock, the same in `crm_clocks_freq_get` and in
`system_core_clock_update`. -/
def crmSclkFreq : UInt32 :=
  match crmSysclkSwitchStatusGet r with
  | 0 =>
      if Misc3Bit.hickToSclk.get r.misc3 ≠ 0 ∧ Misc1Bit.hickdiv.get r.misc1 ≠ 0 then hickValue * 6 else hickValue
  | 1 => hextValue
  | 2 =>
      if CfgBit.pllrcs.get r.cfg = 0 then (hickValue >>> 1) * crmPllMultGet r
      else if CfgBit.pllhextdiv.get r.cfg ≠ 0 then
        let hextPrediv := UInt32.ofNat (Misc3Bit.hextdiv.get r.misc3)
        hextValue / (hextPrediv + 2) * crmPllMultGet r
      else hextValue * crmPllMultGet r
  | _ => hickValue

def crmClocksFreqGet : CrmClocksFreq :=
  let sclkFreq := crmSclkFreq r
  let ahbFreq := sclkFreq >>> UInt32.ofNat (sclkAhbDivTable.getD (CfgBit.ahbdiv.get r.cfg) 0)
  let apb1Freq := ahbFreq >>> UInt32.ofNat (ahbApb1DivTable.getD (CfgBit.apb1div.get r.cfg) 0)
  let apb2Freq := ahbFreq >>> UInt32.ofNat (ahbApb2DivTable.getD (CfgBit.apb2div.get r.cfg) 0)
  let temp := CfgBit.adcdivH.get r.cfg <<< 2 ||| CfgBit.adcdivL.get r.cfg
  ⟨sclkFreq, ahbFreq, apb2Freq, apb1Freq, apb2Freq / UInt32.ofNat (adcDivTable.getD temp 0)⟩

/-- `system_core_clock_update`: the new `system_core_clock`. -/
def systemCoreClockUpdate : UInt32 :=
  crmSclkFreq r >>> UInt32.ofNat (sclkAhbDivTable.getD (CfgBit.ahbdiv.get r.cfg) 0)

end Frequencies

/-- The registers, and how often a status bit has been read. -/
structure ClockBoard where
  crm : Crm
  polled : ℕ
  deriving DecidableEq

namespace ClockBoard

def write (f : Crm → Crm) (s : ClockBoard) : ClockBoard := { s with crm := f s.crm }

/-- One read of a status bit, with what the hardware shows by then. -/
def sense (polls : ℕ → ClockPoll) (s : ClockBoard) : ClockBoard := ⟨s.crm.sense (polls s.polled), s.polled + 1⟩

/-- A loop that waits for a status. -/
def waitFor (polls : ℕ → ClockPoll) (ready : Crm → Bool) : ℕ → ClockBoard → Option ClockBoard
  | 0, _ => none
  | fuel + 1, s =>
      let s := s.sense polls
      if ready s.crm then some s else waitFor polls ready fuel s

end ClockBoard

/-- The stability flags of `crm_flag_get`, by their fields. -/
def lickStableFlag (r : Crm) : Bool := CtrlstsBit.lickstbl.get r.ctrlsts = 1

def hickStableFlag (r : Crm) : Bool := CtrlBit.hickstbl.get r.ctrl = 1

def hextStableFlag (r : Crm) : Bool := CtrlBit.hextstbl.get r.ctrl = 1

def pllStableFlag (r : Crm) : Bool := CtrlBit.pllstbl.get r.ctrl = 1

/-- `crm_reset`. The status of the switch is 0 when `cfg` is cleared. -/
def crmReset (polls : ℕ → ClockPoll) (fuel : ℕ) (s : ClockBoard) : Option ClockBoard := do
  let s := s.write fun r => { r with ctrl := CtrlBit.hicken.set 1 r.ctrl }
  let s ← s.waitFor polls hickStableFlag fuel
  let s := s.write fun r => crmSysclkSwitch r .hick
  let s ← s.waitFor polls (fun r => crmSysclkSwitchStatusGet r = CrmSclk.hick.value) fuel
  return s.write fun r => { r with ctrl := r.ctrl &&& ~~~0x010D0000#32, cfg := 0, misc1 := 0, clkint := 0x009F0000#32 }

end FocFirmware
