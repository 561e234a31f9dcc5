import FocFirmware.BaseRuns
import Mathlib.Data.Fin.Basic
import Mathlib.Logic.Function.Basic

/-! The telemetry path: `USART3_SendFloatArray` of `usart_1.c` in the main loop, DMA1 channel 2, and
the transfer-complete interrupt. Each party moves one atomic step at a time, in any order. Memory is
addressed from the start of `uart3_tx_buffer`; what lies past the buffer belongs to other objects. -/

namespace FocFirmware

/-- Byte `i` of an array of floats in memory, each float its 32-bit word, low byte first. -/
def bytePtr (data : ℕ → UInt32) (i : ℕ) : UInt8 := UInt8.ofNat ((data (i / 4)).toNat >>> (8 * (i % 4)))

def frameTail : List UInt8 := [0x00, 0x00, 0x80, 0x7F]

/-- The frame of `size` floats: their bytes, then the tail. -/
def frame (data : ℕ → UInt32) (size : ℕ) : List UInt8 := (List.range (size * 4)).map (bytePtr data) ++ frameTail

def usart3TxBufferSize : ℕ := 4 * 3 + 4
def rxBufferSize : ℕ := 64
def dma1Channel2BufferSize : ℕ := rxBufferSize

/-- Where the main loop is in a call of `USART3_SendFloatArray`. -/
inductive SendPc where
  | idle
  | copy (i : UInt8)
  | tail (k : Fin 4)
  | wait
  | enable
  deriving DecidableEq

structure DmaChannel where
  chen : Bool
  dtcnt : ℕ
  /-- the offset of the next byte to send -/
  next : ℕ
  fdt2 : Bool
  /-- the bytes sent, oldest first -/
  wire : List UInt8

structure TxState where
  mem : ℕ → UInt8
  usart3TxDmaStatus : UInt8
  pc : SendPc
  /-- calls begun; the `n`-th call sends the `n`-th array -/
  calls : ℕ
  channel : DmaChannel
  /-- transfer-complete interrupts handled -/
  handled : ℕ
  /-- for each call past the wait, the number of the completion that had set the flag -/
  used : List ℕ

/-- The events of a run; `hardware` is a step of whatever drives the channel. -/
inductive TxEvent (H : Type) where
  | main
  | irq
  | hardware (h : H)

def dmaChannelEnable (channel : DmaChannel) (newState : Bool) : DmaChannel := { channel with chen := newState }

/-- One step of the main loop. The loop counter is eight bits wide, its bound is not. -/
def mainStep (size : UInt8) (data : ℕ → ℕ → UInt32) (s : TxState) : TxState :=
  match s.pc with
  | .idle => { s with pc := .copy 0, calls := s.calls + 1 }
  | .copy i =>
      if i.toNat < size.toNat * 4 then
        { s with mem := Function.update s.mem i.toNat (bytePtr (data s.calls) i.toNat), pc := .copy (i + 1) }
      else { s with pc := .tail 0 }
  | .tail k =>
      { s with
        mem := Function.update s.mem (size.toNat * 4 + k.val) (frameTail.getD k.val 0)
        pc := if k = 3 then .wait else .tail (k + 1) }
  | .wait => if s.usart3TxDmaStatus = 0 then s else { s with pc := .enable, used := s.used ++ [s.handled] }
  | .enable => { s with pc := .idle, channel := dmaChannelEnable s.channel true }

def dma1Channel2IRQHandler (s : TxState) : TxState :=
  if s.channel.fdt2 then
    { s with
      usart3TxDmaStatus := 1
      channel := dmaChannelEnable { s.channel with fdt2 := false } false
      handled := s.handled + 1 }
  else s

def txStep {H : Type} (hardware : H → (ℕ → UInt8) → DmaChannel → DmaChannel) (size : UInt8)
    (data : ℕ → ℕ → UInt32) (s : TxState) : TxEvent H → TxState
  | .main => mainStep size data s
  | .irq => dma1Channel2IRQHandler s
  | .hardware h => { s with channel := hardware h s.mem s.channel }

/-- The state a run starts from, whatever memory and channel hold. -/
def TxState.start (mem : ℕ → UInt8) (channel : DmaChannel) : TxState := ⟨mem, 0, .idle, 0, channel, 0, []⟩

end FocFirmware
