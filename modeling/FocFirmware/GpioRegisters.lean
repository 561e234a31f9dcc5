import FocFirmware.BaseBitField
import FocFirmware.BaseRuns
import Mathlib.Data.List.Basic

/-! The port registers and the functions of `at32f403a_407_gpio.c` that write them. Four bits and the output
latch say what a pin is; a call is meant for the pins of its mask, and those are the pins it changes. -/

namespace FocFirmware

open BitField Runs

/-- `gpio_mode_type` -/
inductive GpioMode where
  | input
  | output
  | mux
  | analog
  deriving DecidableEq

def GpioMode.value : GpioMode → ℕ
  | .input => 0x00
  | .output => 0x10
  | .mux => 0x08
  | .analog => 0x03

/-- `gpio_drive_type` -/
inductive GpioDrive where
  | stronger
  | moderate
  deriving DecidableEq

def GpioDrive.value : GpioDrive → ℕ
  | .stronger => 0x01
  | .moderate => 0x02

/-- `gpio_output_type` -/
inductive GpioOutput where
  | pushPull
  | openDrain
  deriving DecidableEq

def GpioOutput.value : GpioOutput → ℕ
  | .pushPull => 0x00
  | .openDrain => 0x04

/-- `gpio_pull_type` -/
inductive GpioPull where
  | none
  | up
  | down
  deriving DecidableEq

def GpioPull.value : GpioPull → ℕ
  | .none => 0x0004
  | .up => 0x0018
  | .down => 0x0028

/-- `gpio_init_type`; of the pins the function reads the low half word. -/
structure GpioInit where
  gpioPins : BitVec 16
  gpioOutType : GpioOutput
  gpioPull : GpioPull
  gpioMode : GpioMode
  gpioDriveStrength : GpioDrive
  deriving DecidableEq

/-- The registers of `gpio_type` behind these functions: a write to `scr` sets bits of the output, one to
`clr` clears them. -/
structure GpioPort where
  cfglr : BitVec 32
  cfghr : BitVec 32
  odt : BitVec 16

def GpioPort.writeScr (pins : BitVec 16) (r : GpioPort) : GpioPort := { r with odt := r.odt ||| pins }

def GpioPort.writeClr (pins : BitVec 16) (r : GpioPort) : GpioPort := { r with odt := r.odt &&& ~~~pins }

/-- One pass of a loop of `gpio_init`: the four bits of pin `temp`. -/
def writePin (pinxValue temp : ℕ) (cfg : BitVec 32) : BitVec 32 :=
  cfg &&& ~~~(0x0F#32 <<< (temp * 4)) ||| BitVec.ofNat 32 pinxValue <<< (temp * 4)

/-- The loop over eight pins. -/
def writePins (pinIndex : BitVec 16) (pinxValue : ℕ) (cfg : BitVec 32) : BitVec 32 :=
  (List.range 0x08).foldl (fun cfg temp => if 1#16 <<< temp &&& pinIndex ≠ 0 then writePin pinxValue temp cfg else cfg) cfg

/-- The group of bits for every pin of the call. -/
def GpioInit.pinxValue (s : GpioInit) : ℕ :=
  match s.gpioMode with
  | .analog => 0x00
  | .input => s.gpioPull.value &&& 0x0F
  | _ => s.gpioMode.value &&& 0x08 ||| s.gpioOutType.value &&& 0x04 ||| s.gpioDriveStrength.value &&& 0x03

/-- The branches of `gpio_init` that pull an input. -/
def GpioInit.writePull (s : GpioInit) (r : GpioPort) : GpioPort :=
  match s.gpioMode, s.gpioPull with
  | .input, .up => r.writeScr s.gpioPins
  | .input, .down => r.writeClr s.gpioPins
  | _, _ => r

def gpioInit (s : GpioInit) (r : GpioPort) : GpioPort :=
  let pinIndex := s.gpioPins
  let r := s.writePull r
  let r := if pinIndex &&& 0x00FF ≠ 0x00 then { r with cfglr := writePins pinIndex s.pinxValue r.cfglr } else r
  if pinIndex > 0x00FF then { r with cfghr := writePins (pinIndex >>> 8) s.pinxValue r.cfghr } else r

def gpioDefaultParaInit : GpioInit := ⟨0xFFFF, .pushPull, .none, .input, .stronger⟩

def gpioBitsSet (pins : BitVec 16) (r : GpioPort) : GpioPort := r.writeScr pins

def gpioBitsReset (pins : BitVec 16) (r : GpioPort) : GpioPort := r.writeClr pins

/-- The port, whatever it is called with. -/
inductive PortName where
  | gpioA
  | gpioB
  | gpioC
  | gpioD
  | gpioE
  deriving DecidableEq

inductive PortCall where
  | init (s : GpioInit)
  | bitsSet (pins : BitVec 16)
  | bitsReset (pins : BitVec 16)
  deriving DecidableEq

structure GpioCall where
  gpioX : PortName
  call : PortCall
  deriving DecidableEq

def PortCall.exec : PortCall → GpioPort → GpioPort
  | .init s, r => gpioInit s r
  | .bitsSet pins, r => gpioBitsSet pins r
  | .bitsReset pins, r => gpioBitsReset pins r

/-- The five ports. -/
abbrev Gpio : Type := PortName → GpioPort

def GpioCall.exec (g : Gpio) (c : GpioCall) : Gpio := fun port => if port = c.gpioX then c.call.exec (g port) else g port

/-! ### What the registers mean -/

/-- What a pin does. A pulled input is pulled to its output latch. -/
inductive PinFunction where
  | analog
  | floating
  | pulled
  | reserved
  | output (mux openDrain : Bool) (strength : ℕ)
  deriving DecidableEq

structure Pin where
  function : PinFunction
  latch : Bool
  deriving DecidableEq

def PinFunction.decode (group : ℕ) : PinFunction :=
  if group % 4 = 0 then
    match group / 4 with
    | 0 => .analog
    | 1 => .floating
    | 2 => .pulled
    | _ => .reserved
  else .output (decide (8 ≤ group)) (decide (4 ≤ group % 8)) (group % 4)

/-- The group of bits of pin `i`, in the lower or the upper register. -/
def GpioPort.group (r : GpioPort) (i : Fin 16) : ℕ :=
  if i.val < 8 then (Field.slot 4 i.val).get r.cfglr else (Field.slot 4 (i.val - 8)).get r.cfghr

def GpioPort.pin (r : GpioPort) (i : Fin 16) : Pin := ⟨.decode (r.group i), r.odt.getLsbD i.val⟩

/-- What the caller of `gpio_init` asks for. -/
def GpioInit.function (s : GpioInit) : PinFunction :=
  match s.gpioMode with
  | .analog => .analog
  | .input => if s.gpioPull = .none then .floating else .pulled
  | .output => .output false (decide (s.gpioOutType = .openDrain)) s.gpioDriveStrength.value
  | .mux => .output true (decide (s.gpioOutType = .openDrain)) s.gpioDriveStrength.value

/-- The level to which the latch is set for a pulled input. -/
def GpioInit.level (s : GpioInit) : Option Bool :=
  match s.gpioMode, s.gpioPull with
  | .input, .up => some true
  | .input, .down => some false
  | _, _ => none

def PortCall.pins : PortCall → BitVec 16
  | .init s => s.gpioPins
  | .bitsSet pins => pins
  | .bitsReset pins => pins

def PortCall.function : PortCall → Option PinFunction
  | .init s => some s.function
  | _ => none

def PortCall.level : PortCall → Option Bool
  | .init s => s.level
  | .bitsSet _ => some true
  | .bitsReset _ => some false

def GpioCall.names (port : PortName) (i : Fin 16) (c : GpioCall) : Bool :=
  decide (c.gpioX = port) && c.call.pins.getLsbD i.val

/-- What a call asks of a pin's function, if anything. -/
def GpioCall.asks (port : PortName) (i : Fin 16) (c : GpioCall) : Option PinFunction :=
  if c.names port i then c.call.function else none

/-- What a call drives a pin's latch to, if anything. -/
def GpioCall.drives (port : PortName) (i : Fin 16) (c : GpioCall) : Option Bool :=
  if c.names port i then c.call.level else none

section Loops

theorem writePin_eq_set {v : ℕ} (hv : v < 16) (temp : ℕ) : writePin v temp = (Field.slot 4 temp).set v := by
  funext cfg
  have hmod : v % 2 ^ 4 = v := Nat.mod_eq_of_lt hv
  simp only [writePin, Field.set, Field.mask, Field.slot, hmod]
  rfl

theorem bit_selected (pins : BitVec 16) (temp : ℕ) (h : temp < 16) : 1#16 <<< temp &&& pins ≠ 0 ↔ pins.getLsbD temp = true := by
  have hone : 1#16 <<< temp = BitVec.twoPow 16 temp := (BitVec.twoPow_eq 16 temp).symm
  rw [hone, BitVec.and_comm, BitVec.and_twoPow]
  cases hbit : pins.getLsbD temp with
  | false => simp
  | true =>
      have hpow : BitVec.twoPow 16 temp ≠ 0#16 := by
        intro hzero
        have hset : (BitVec.twoPow 16 temp).getLsbD temp = true := by simp [h]
        rw [hzero] at hset
        simp at hset
      simp only [if_true, ne_eq, iff_true]
      exact hpow

/-- The loop writes the pins of the mask. -/
theorem get_writePins {v : ℕ} (hv : v < 16) (pins : BitVec 16) (cfg : BitVec 32) {j : ℕ} (hj : j < 8) :
    (Field.slot 4 j).get (writePins pins v cfg) = if pins.getLsbD j then v else (Field.slot 4 j).get cfg := by
  have hloop : writePins pins v cfg =
      (List.range 8).foldl (fun r i => if pins.getLsbD i then (Field.slot 4 i).set v r else r) cfg := by
    unfold writePins
    apply List.foldl_ext _ _ _
    intro r i hi
    have hlt : i < 16 := lt_trans (List.mem_range.mp hi) (by decide)
    simp only [bit_selected pins i hlt, writePin_eq_set hv]
  have hmod : v % 2 ^ 4 = v := Nat.mod_eq_of_lt hv
  rw [hloop, Field.get_foldl_set (by decide), hmod]
  simp [hj]

theorem pinxValue_lt (s : GpioInit) : s.pinxValue < 16 := by
  obtain ⟨pins, out, pull, mode, drive⟩ := s
  cases out <;> cases pull <;> cases mode <;> cases drive <;>
    simp [GpioInit.pinxValue, GpioMode.value, GpioOutput.value, GpioPull.value, GpioDrive.value]

theorem decode_pinxValue (s : GpioInit) : PinFunction.decode s.pinxValue = s.function := by
  obtain ⟨pins, out, pull, mode, drive⟩ := s
  cases out <;> cases pull <;> cases mode <;> cases drive <;>
    simp [GpioInit.pinxValue, GpioInit.function, GpioMode.value, GpioOutput.value, GpioPull.value, GpioDrive.value,
      PinFunction.decode]

end Loops

section Refinement

variable (s : GpioInit) (r : GpioPort)

theorem writePull_cfg : (s.writePull r).cfglr = r.cfglr ∧ (s.writePull r).cfghr = r.cfghr := by
  unfold GpioInit.writePull
  split <;> exact ⟨rfl, rfl⟩

theorem cfglr_gpioInit : (gpioInit s r).cfglr =
    if s.gpioPins &&& 0x00FF ≠ 0x00 then writePins s.gpioPins s.pinxValue r.cfglr else r.cfglr := by
  rw [← (writePull_cfg s r).1]
  unfold gpioInit
  dsimp only
  split_ifs <;> rfl

theorem cfghr_gpioInit : (gpioInit s r).cfghr =
    if s.gpioPins > 0x00FF then writePins (s.gpioPins >>> 8) s.pinxValue r.cfghr else r.cfghr := by
  rw [← (writePull_cfg s r).2]
  unfold gpioInit
  dsimp only
  split_ifs <;> rfl

theorem odt_gpioInit : (gpioInit s r).odt = (s.writePull r).odt := by
  unfold gpioInit
  dsimp only
  split_ifs <;> rfl

/-- The group of a pin after `gpio_init`, whichever loops run. -/
theorem group_gpioInit (i : Fin 16) :
    (gpioInit s r).group i = if s.gpioPins.getLsbD i.val then s.pinxValue else r.group i := by
  have hv := pinxValue_lt s
  have hlow : ∀ r : GpioPort, i.val < 8 →
      (Field.slot 4 i.val).get (if s.gpioPins &&& 0x00FF ≠ 0x00 then writePins s.gpioPins s.pinxValue r.cfglr else r.cfglr) =
        if s.gpioPins.getLsbD i.val then s.pinxValue else (Field.slot 4 i.val).get r.cfglr := by
    intro r hi
    split_ifs with hloop hsel hsel
    · rw [get_writePins hv _ _ hi, if_pos hsel]
    · rw [get_writePins hv _ _ hi, if_neg hsel]
    · -- a pin of the lower half is in the mask
      have hbit : (s.gpioPins &&& 0x00FF).getLsbD i.val = true := by
        have hmask : (0x00FF : BitVec 16).getLsbD i.val = true := by
          have hall : ∀ n < 8, (0x00FF : BitVec 16).getLsbD n = true := by decide
          exact hall _ hi
        rw [BitVec.getLsbD_and, hsel, hmask]
        rfl
      rw [not_not.mp hloop] at hbit
      simp at hbit
    · rfl
  have hhigh : ∀ r : GpioPort, ¬i.val < 8 →
      (Field.slot 4 (i.val - 8)).get
          (if s.gpioPins > 0x00FF then writePins (s.gpioPins >>> 8) s.pinxValue r.cfghr else r.cfghr) =
        if s.gpioPins.getLsbD i.val then s.pinxValue else (Field.slot 4 (i.val - 8)).get r.cfghr := by
    intro r hi
    have hbit : (s.gpioPins >>> 8).getLsbD (i.val - 8) = s.gpioPins.getLsbD i.val := by
      rw [BitVec.getLsbD_ushiftRight]
      congr 1
      omega
    split_ifs with hloop hsel hsel
    · rw [get_writePins hv _ _ (by omega), hbit, if_pos hsel]
    · rw [get_writePins hv _ _ (by omega), hbit, if_neg hsel]
    · -- a pin of the upper half makes the mask large
      have hge := Nat.ge_two_pow_of_testBit (x := s.gpioPins.toNat) (i := i.val) hsel
      have hpow : 2 ^ 8 ≤ 2 ^ i.val := Nat.pow_le_pow_right (by decide) (not_lt.mp hi)
      rw [gt_iff_lt, BitVec.lt_def] at hloop
      simp at hloop
      omega
    · rfl
  unfold GpioPort.group
  by_cases hi : i.val < 8
  · rw [if_pos hi, if_pos hi, ← hlow r hi, cfglr_gpioInit]
  · rw [if_neg hi, if_neg hi, ← hhigh r hi, cfghr_gpioInit]

theorem getLsbD_or_pins (odt pins : BitVec 16) (i : Fin 16) :
    (odt ||| pins).getLsbD i.val = if pins.getLsbD i.val then true else odt.getLsbD i.val := by
  rw [BitVec.getLsbD_or]
  cases pins.getLsbD i.val <;> simp

theorem getLsbD_and_not_pins (odt pins : BitVec 16) (i : Fin 16) :
    (odt &&& ~~~pins).getLsbD i.val = if pins.getLsbD i.val then false else odt.getLsbD i.val := by
  rw [BitVec.getLsbD_and, BitVec.getLsbD_not]
  cases pins.getLsbD i.val <;> simp

theorem latch_writePull (i : Fin 16) : (s.writePull r).odt.getLsbD i.val =
    if s.gpioPins.getLsbD i.val then s.level.getD (r.odt.getLsbD i.val) else r.odt.getLsbD i.val := by
  have hset := getLsbD_or_pins r.odt s.gpioPins i
  have hreset := getLsbD_and_not_pins r.odt s.gpioPins i
  obtain ⟨pins, out, pull, mode, drive⟩ := s
  cases mode with
  | input =>
      cases pull with
      | none => exact (ite_self _).symm
      | up => exact hset
      | down => exact hreset
  | output | mux | analog => exact (ite_self _).symm

/-- One call, one pin: the pins of the mask become what the call says, the others stay. -/
theorem pin_exec (c : PortCall) (r : GpioPort) (i : Fin 16) : (c.exec r).pin i =
    if c.pins.getLsbD i.val then ⟨c.function.getD (r.pin i).function, c.level.getD (r.pin i).latch⟩ else r.pin i := by
  cases c with
  | bitsSet pins =>
      change Pin.mk (.decode (r.group i)) ((r.odt ||| pins).getLsbD i.val) =
        if pins.getLsbD i.val then ⟨.decode (r.group i), true⟩ else r.pin i
      rw [getLsbD_or_pins]
      split_ifs <;> rfl
  | bitsReset pins =>
      change Pin.mk (.decode (r.group i)) ((r.odt &&& ~~~pins).getLsbD i.val) =
        if pins.getLsbD i.val then ⟨.decode (r.group i), false⟩ else r.pin i
      rw [getLsbD_and_not_pins]
      split_ifs <;> rfl
  | init s =>
      change Pin.mk (.decode ((gpioInit s r).group i)) ((gpioInit s r).odt.getLsbD i.val) =
        if s.gpioPins.getLsbD i.val then ⟨s.function, s.level.getD (r.odt.getLsbD i.val)⟩ else r.pin i
      rw [group_gpioInit, odt_gpioInit, latch_writePull]
      split_ifs
      · rw [decode_pinxValue]
      · rfl

/-- **Every pin is on its own.** A call makes of a pin what it asks of that pin. -/
theorem pin_call (g : Gpio) (c : GpioCall) (port : PortName) (i : Fin 16) : (c.exec g port).pin i =
    ⟨(c.asks port i).getD ((g port).pin i).function, (c.drives port i).getD ((g port).pin i).latch⟩ := by
  unfold GpioCall.exec GpioCall.asks GpioCall.drives GpioCall.names
  by_cases hport : port = c.gpioX
  · rw [if_pos hport, pin_exec]
    cases c.call.pins.getLsbD i.val <;> simp [hport]
  · have hother : decide (c.gpioX = port) = false := decide_eq_false fun h => hport h.symm
    rw [if_neg hport, hother]
    rfl

theorem function_call (port : PortName) (i : Fin 16) (g : Gpio) (c : GpioCall) :
    ((c.exec g port).pin i).function = (c.asks port i).getD ((g port).pin i).function := by rw [pin_call]

theorem latch_call (port : PortName) (i : Fin 16) (g : Gpio) (c : GpioCall) :
    ((c.exec g port).pin i).latch = (c.drives port i).getD ((g port).pin i).latch := by rw [pin_call]

end Refinement

/-- **The last call counts.** Through any calls for any ports, a pin does what the last `gpio_init` that names
it asks for, its latch is what the last call that drives it made of it, and what no call names is as before. -/
theorem gpio_last_call (g : Gpio) (calls : List GpioCall) (port : PortName) (i : Fin 16) :
    (run GpioCall.exec g calls port).pin i =
      ⟨(calls.reverse.findSome? (GpioCall.asks port i)).getD ((g port).pin i).function,
        (calls.reverse.findSome? (GpioCall.drives port i)).getD ((g port).pin i).latch⟩ := by
  have hfunction := run_last_write (fun g : Gpio => ((g port).pin i).function) (GpioCall.asks port i)
    (fun g c => function_call port i g c) g calls
  have hlatch := run_last_write (fun g : Gpio => ((g port).pin i).latch) (GpioCall.drives port i)
    (fun g c => latch_call port i g c) g calls
  rw [← hfunction, ← hlatch]

end FocFirmware
