import FocFirmware.GpioRegisters

/-! What the start-up functions make of the pins. Each is the list of its calls to the port driver;
`gpio_init_struct` is a local variable of each, filled with the defaults at first. -/

namespace FocFirmware

open BitField Runs

/-- `GPIO_PINS_0` to `GPIO_PINS_15` -/
def gpioPins (i : ℕ) : BitVec 16 := BitVec.twoPow 16 i

/-- The assignments in front of a call of `gpio_init`, where all the fields are assigned. -/
def configured (strength : GpioDrive) (mode : GpioMode) (pins : BitVec 16) : GpioInit :=
  { gpioDefaultParaInit with
    gpioDriveStrength := strength, gpioOutType := .pushPull, gpioMode := mode, gpioPins := pins, gpioPull := .none }

def wkGpioConfig : List GpioCall :=
  [⟨.gpioB, .bitsReset (gpioPins 0 ||| gpioPins 3 ||| gpioPins 4)⟩,
    ⟨.gpioA, .bitsReset (gpioPins 12)⟩,
    ⟨.gpioB, .init (configured .moderate .output (gpioPins 0 ||| gpioPins 3 ||| gpioPins 4))⟩,
    ⟨.gpioA, .init (configured .moderate .output (gpioPins 12))⟩]

/-- Of the fields only the mode and the pins are assigned. -/
def wkAdc1Init : List GpioCall :=
  [⟨.gpioA, .init { gpioDefaultParaInit with gpioMode := .analog, gpioPins := gpioPins 0 }⟩,
    ⟨.gpioA, .init { gpioDefaultParaInit with gpioMode := .analog, gpioPins := gpioPins 1 }⟩,
    ⟨.gpioA, .init { gpioDefaultParaInit with gpioMode := .analog, gpioPins := gpioPins 2 }⟩]

def wkUsart1Init : List GpioCall :=
  [⟨.gpioB, .init (configured .moderate .mux (gpioPins 6))⟩,
    ⟨.gpioB, .init (configured .moderate .input (gpioPins 7))⟩]

def wkUsart3Init : List GpioCall :=
  [⟨.gpioB, .init (configured .moderate .mux (gpioPins 10))⟩,
    ⟨.gpioB, .init (configured .moderate .input (gpioPins 11))⟩]

def wkSpi1Init : List GpioCall :=
  [⟨.gpioA, .init (configured .moderate .mux (gpioPins 5))⟩,
    ⟨.gpioA, .init (configured .moderate .input (gpioPins 6))⟩,
    ⟨.gpioA, .init (configured .moderate .mux (gpioPins 7))⟩]

def wkTmr1Init : List GpioCall :=
  [⟨.gpioB, .init (configured .stronger .input (gpioPins 12))⟩,
    ⟨.gpioB, .init (configured .stronger .mux (gpioPins 13))⟩,
    ⟨.gpioB, .init (configured .stronger .mux (gpioPins 14))⟩,
    ⟨.gpioB, .init (configured .stronger .mux (gpioPins 15))⟩,
    ⟨.gpioA, .init (configured .stronger .mux (gpioPins 8))⟩,
    ⟨.gpioA, .init (configured .stronger .mux (gpioPins 9))⟩,
    ⟨.gpioA, .init (configured .stronger .mux (gpioPins 10))⟩,
    ⟨.gpioA, .init (configured .moderate .mux (gpioPins 11))⟩]

/-- All the calls of the start-up, in the order of main. -/
def startupCalls : List GpioCall :=
  wkGpioConfig ++ wkAdc1Init ++ wkUsart1Init ++ wkUsart3Init ++ wkSpi1Init ++ wkTmr1Init

/-- The board's pins: the phase currents on A0 to A2, the encoder's bus on A5 to A7 and B0, the bridge on A8 to A10
and B12 to B15, the trigger of the conversions on A11, the two ports on B6, B7, B10 and B11, the lamps on B3 and B4. -/
def pinTable : PortName → Fin 16 → Option PinFunction
  | .gpioA, 0 | .gpioA, 1 | .gpioA, 2 => some .analog
  | .gpioA, 5 | .gpioA, 7 | .gpioA, 11 | .gpioB, 6 | .gpioB, 10 => some (.output true false 2)
  | .gpioA, 8 | .gpioA, 9 | .gpioA, 10 | .gpioB, 13 | .gpioB, 14 | .gpioB, 15 => some (.output true false 1)
  | .gpioA, 6 | .gpioB, 7 | .gpioB, 11 | .gpioB, 12 => some .floating
  | .gpioA, 12 | .gpioB, 0 | .gpioB, 3 | .gpioB, 4 => some (.output false false 2)
  | _, _ => none

/-- No two calls of the start-up ask for the same pin, and together they ask for what the table says. -/
theorem startupCalls_asks (port : PortName) (i : Fin 16) :
    startupCalls.filterMap (GpioCall.asks port i) = (pinTable port i).toList := by
  cases port <;> revert i <;> decide

theorem pinTable_iff_asked (port : PortName) (i : Fin 16) (f : PinFunction) :
    pinTable port i = some f ↔ ∃ c ∈ startupCalls, c.asks port i = some f := by
  rw [← List.mem_filterMap, startupCalls_asks, Option.mem_toList]

/-- A call that only drives pins asks for nothing. -/
theorem asks_drive {c : GpioCall} (h : c.call.function = none) (port : PortName) (i : Fin 16) : c.asks port i = none := by
  unfold GpioCall.asks
  rw [h, ite_self]

/-- **The pins of the board.** However the calls of the start-up are ordered and however often they are made, and
whatever pins are set and reset in between and afterwards, every pin does what the table says, and a pin that is not
in it does what it did. -/
theorem startup_pins (g : Gpio) (calls : List GpioCall) (hall : ∀ c ∈ startupCalls, c ∈ calls)
    (honly : ∀ c ∈ calls, c ∈ startupCalls ∨ c.call.function = none) (port : PortName) (i : Fin 16) :
    ((run GpioCall.exec g calls port).pin i).function = (pinTable port i).getD ((g port).pin i).function := by
  apply run_agreed (fun g : Gpio => ((g port).pin i).function) (GpioCall.asks port i) fun g c => function_call port i g c
  intro f
  rw [pinTable_iff_asked]
  constructor
  · rintro ⟨c, hc, hasks⟩
    exact ⟨c, hall c hc, hasks⟩
  · rintro ⟨c, hc, hasks⟩
    rcases honly c hc with hstartup | hdrive
    · exact ⟨c, hstartup, hasks⟩
    · rw [asks_drive hdrive] at hasks
      cases hasks

/-- Main's order, then the two lamps of a calibration. -/
theorem startup_pins_calibrated :
    let lamps : List GpioCall := [⟨.gpioB, .bitsReset (gpioPins 3)⟩, ⟨.gpioB, .bitsSet (gpioPins 4)⟩]
    ((run GpioCall.exec (fun _ => ⟨0, 0, 0⟩) (startupCalls ++ lamps) .gpioB).pin 0).function = .output false false 2 := by
  intro lamps
  apply startup_pins
  · intro c hc
    exact List.mem_append_left _ hc
  · intro c hc
    rcases List.mem_append.mp hc with hstartup | hlamp
    · exact Or.inl hstartup
    · simp only [lamps, List.mem_cons, List.not_mem_nil, or_false] at hlamp
      right
      rcases hlamp with rfl | rfl <;> rfl

end FocFirmware
