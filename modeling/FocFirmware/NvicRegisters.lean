import FocFirmware.BaseRuns
import Mathlib.Data.Nat.Bitwise
import Mathlib.Logic.Function.Basic
import Mathlib.Tactic.Common
import Mathlib.Tactic.IntervalCases

/-! The interrupt priorities: the functions of `core_cm4.h` and `at32f403a_407_misc.c` that pack a preemption
level and a urgency within it into the upper bits of one byte for each interrupt, and `wk_nvic_config`. -/

namespace FocFirmware

open Runs

/-- The registers of the interrupt controller and of the system control block that the priorities use. -/
structure Nvic where
  aircr : BitVec 32
  shp : ℕ → BitVec 8
  iser : ℕ → BitVec 32
  ip : ℕ → BitVec 8

namespace Nvic

/-- `__NVIC_PRIO_BITS` -/
def prioBits : BitVec 32 := 4

/-- A write to AIRCR counts with the key in its upper half, which reads back as another number. -/
def writeAircr (value : BitVec 32) (r : Nvic) : Nvic :=
  if value >>> 16 = 0x5FA then { r with aircr := 0xFA05#32 <<< 16 ||| (value &&& 0xFFFF) } else r

def setPriorityGrouping (priorityGroup : BitVec 32) (r : Nvic) : Nvic :=
  let priorityGroupTmp := priorityGroup &&& 0x07
  let regValue := r.aircr
  let regValue := regValue &&& ~~~(0xFFFF#32 <<< 16 ||| 7#32 <<< 8)
  let regValue := regValue ||| 0x5FA#32 <<< 16 ||| priorityGroupTmp <<< 8
  writeAircr regValue r

def getPriorityGrouping (r : Nvic) : BitVec 32 := (r.aircr &&& 7#32 <<< 8) >>> 8

/-- A one written to ISER enables, a zero does nothing. -/
def enableIRQ (irqn : ℤ) (r : Nvic) : Nvic :=
  if 0 ≤ irqn then
    let word := (BitVec.ofInt 32 irqn >>> 5).toNat
    { r with iser := Function.update r.iser word (r.iser word ||| 1#32 <<< (BitVec.ofInt 32 irqn &&& 0x1F)) }
  else r

def setPriority (irqn : ℤ) (priority : BitVec 32) (r : Nvic) : Nvic :=
  let byte := (priority <<< (8 - prioBits) &&& 0xFF).setWidth 8
  if 0 ≤ irqn then { r with ip := Function.update r.ip (BitVec.ofInt 32 irqn).toNat byte }
  else { r with shp := Function.update r.shp ((BitVec.ofInt 32 irqn &&& 0xF) - 4).toNat byte }

def getPriority (irqn : ℤ) (r : Nvic) : BitVec 32 :=
  if 0 ≤ irqn then (r.ip (BitVec.ofInt 32 irqn).toNat).setWidth 32 >>> (8 - prioBits)
  else (r.shp ((BitVec.ofInt 32 irqn &&& 0xF) - 4).toNat).setWidth 32 >>> (8 - prioBits)

def preemptPriorityBits (priorityGroup : BitVec 32) : BitVec 32 :=
  let priorityGroupTmp := priorityGroup &&& 0x07
  if 7 - priorityGroupTmp > prioBits then prioBits else 7 - priorityGroupTmp

def subPriorityBits (priorityGroup : BitVec 32) : BitVec 32 :=
  let priorityGroupTmp := priorityGroup &&& 0x07
  if priorityGroupTmp + prioBits < 7 then 0 else priorityGroupTmp - 7 + prioBits

def encodePriority (priorityGroup preemptPriority subPriority : BitVec 32) : BitVec 32 :=
  let preemptPriorityBits := preemptPriorityBits priorityGroup
  let subPriorityBits := subPriorityBits priorityGroup
  (preemptPriority &&& (1#32 <<< preemptPriorityBits - 1)) <<< subPriorityBits ||| subPriority &&& (1#32 <<< subPriorityBits - 1)

/-- The preemption level and the urgency within it. -/
def decodePriority (priority priorityGroup : BitVec 32) : BitVec 32 × BitVec 32 :=
  let preemptPriorityBits := preemptPriorityBits priorityGroup
  let subPriorityBits := subPriorityBits priorityGroup
  (priority >>> subPriorityBits &&& (1#32 <<< preemptPriorityBits - 1), priority &&& (1#32 <<< subPriorityBits - 1))

end Nvic

/-- `nvic_irq_enable` -/
def nvicIrqEnable (irqn : ℤ) (preemptPriority subPriority : BitVec 32) (r : Nvic) : Nvic :=
  let tempPriority := Nvic.encodePriority r.getPriorityGrouping preemptPriority subPriority
  (r.setPriority irqn tempPriority).enableIRQ irqn

/-- `nvic_priority_group_config`, whose argument is the value of the enumeration. -/
def nvicPriorityGroupConfig (priorityGroup : BitVec 32) (r : Nvic) : Nvic := r.setPriorityGrouping priorityGroup

/-- `NVIC_PRIORITY_GROUP_4`: all four bits are the level. -/
def nvicPriorityGroup4 : BitVec 32 := 3

def memoryManagementIRQn : ℤ := -12
def busFaultIRQn : ℤ := -11
def usageFaultIRQn : ℤ := -10
def svCallIRQn : ℤ := -5
def debugMonitorIRQn : ℤ := -4
def pendSvIRQn : ℤ := -2
def sysTickIRQn : ℤ := -1
def dma1Channel2IRQn : ℤ := 12
def dma1Channel3IRQn : ℤ := 13
def tmr2GlobalIRQn : ℤ := 28
def usart3IRQn : ℤ := 39

def wkNvicConfig (r : Nvic) : Nvic :=
  let r := nvicPriorityGroupConfig nvicPriorityGroup4 r
  let r := r.setPriority memoryManagementIRQn (Nvic.encodePriority r.getPriorityGrouping 0 0)
  let r := r.setPriority busFaultIRQn (Nvic.encodePriority r.getPriorityGrouping 0 0)
  let r := r.setPriority usageFaultIRQn (Nvic.encodePriority r.getPriorityGrouping 0 0)
  let r := r.setPriority svCallIRQn (Nvic.encodePriority r.getPriorityGrouping 0 0)
  let r := r.setPriority debugMonitorIRQn (Nvic.encodePriority r.getPriorityGrouping 0 0)
  let r := r.setPriority pendSvIRQn (Nvic.encodePriority r.getPriorityGrouping 0 0)
  let r := r.setPriority sysTickIRQn (Nvic.encodePriority r.getPriorityGrouping 15 0)
  let r := nvicIrqEnable dma1Channel2IRQn 0 0 r
  let r := nvicIrqEnable dma1Channel3IRQn 0 0 r
  let r := nvicIrqEnable tmr2GlobalIRQn 0 0 r
  nvicIrqEnable usart3IRQn 0 0 r

namespace Nvic

/-- What the hardware makes of an interrupt's byte. -/
def urgency (irqn : ℤ) (r : Nvic) : ℕ × ℕ :=
  let (level, sub) := decodePriority (r.getPriority irqn) r.getPriorityGrouping
  (level.toNat, sub.toNat)

def enabled (irqn : ℤ) (r : Nvic) : Bool := (r.iser (irqn.toNat / 32)).getLsbD (irqn.toNat % 32)

section Pack

/-- How many of the four bits are the urgency within a level. -/
def subWidth (priorityGroup : BitVec 32) : ℕ := priorityGroup.toNat % 8 - 3

theorem subWidth_le (g : BitVec 32) : subWidth g ≤ 4 := by
  have hlt := Nat.mod_lt g.toNat (by decide : 8 > 0)
  unfold subWidth
  omega

/-- The two widths share the four bits, whatever the group. -/
theorem bits_eq (g : BitVec 32) :
    subPriorityBits g = BitVec.ofNat 32 (subWidth g) ∧ preemptPriorityBits g = BitVec.ofNat 32 (4 - subWidth g) := by
  have hall : ∀ n < 8, (if BitVec.ofNat 32 n + prioBits < 7 then 0 else BitVec.ofNat 32 n - 7 + prioBits) = BitVec.ofNat 32 (n - 3) ∧
      (if 7 - BitVec.ofNat 32 n > prioBits then prioBits else 7 - BitVec.ofNat 32 n) = BitVec.ofNat 32 (4 - (n - 3)) := by
    decide
  have hmask : g &&& 0x07 = BitVec.ofNat 32 (g.toNat % 8) := by
    apply BitVec.eq_of_toNat_eq
    have hseven : (0x07 : BitVec 32).toNat = 2 ^ 3 - 1 := rfl
    have hlt := Nat.mod_lt g.toNat (by decide : 8 > 0)
    rw [BitVec.toNat_and, hseven, Nat.and_two_pow_sub_one_eq_mod, BitVec.toNat_ofNat]
    omega
  unfold subPriorityBits preemptPriorityBits subWidth
  rw [hmask]
  exact hall _ (Nat.mod_lt _ (by decide))

/-- A mask of `k` ones keeps the remainder. -/
theorem toNat_and_mask (x : BitVec 32) {k : ℕ} (hk : k ≤ 4) :
    (x &&& (1#32 <<< BitVec.ofNat 32 k - 1)).toNat = x.toNat % 2 ^ k := by
  have hmask : ∀ k ≤ 4, (1#32 <<< BitVec.ofNat 32 k - 1).toNat = 2 ^ k - 1 := by decide
  rw [BitVec.toNat_and, hmask k hk, Nat.and_two_pow_sub_one_eq_mod]

theorem toNat_encodePriority (g p sub : BitVec 32) : (encodePriority g p sub).toNat =
    p.toNat % 2 ^ (4 - subWidth g) * 2 ^ subWidth g + sub.toNat % 2 ^ subWidth g := by
  obtain ⟨hsub, hpreempt⟩ := bits_eq g
  have hk := subWidth_le g
  generalize subWidth g = k at hsub hpreempt hk ⊢
  have hlow : sub.toNat % 2 ^ k < 2 ^ k := Nat.mod_lt _ (Nat.two_pow_pos k)
  have hhigh : p.toNat % 2 ^ (4 - k) < 2 ^ (4 - k) := Nat.mod_lt _ (Nat.two_pow_pos _)
  have hfits : p.toNat % 2 ^ (4 - k) * 2 ^ k < 2 ^ 32 := by
    calc p.toNat % 2 ^ (4 - k) * 2 ^ k < 2 ^ (4 - k) * 2 ^ k := Nat.mul_lt_mul_of_pos_right hhigh (Nat.two_pow_pos k)
      _ = 2 ^ 4 := by rw [← Nat.pow_add, Nat.sub_add_cancel hk]
      _ < 2 ^ 32 := by decide
  have hshift : (BitVec.ofNat 32 k).toNat = k := by
    rw [BitVec.toNat_ofNat]
    omega
  have hfirst := toNat_and_mask p (Nat.sub_le 4 k)
  have hsecond := toNat_and_mask sub hk
  unfold encodePriority
  rw [hsub, hpreempt]
  dsimp only
  generalize p &&& (1#32 <<< BitVec.ofNat 32 (4 - k) - 1) = a at hfirst ⊢
  generalize sub &&& (1#32 <<< BitVec.ofNat 32 k - 1) = b at hsecond ⊢
  rw [BitVec.toNat_or, BitVec.shiftLeft_eq', BitVec.toNat_shiftLeft, hshift, hfirst, hsecond, Nat.shiftLeft_eq,
    Nat.mod_eq_of_lt hfits, ← Nat.shiftLeft_eq, Nat.shiftLeft_add_eq_or_of_lt hlow]

theorem decodePriority_toNat (v g : BitVec 32) :
    (decodePriority v g).1.toNat = v.toNat / 2 ^ subWidth g % 2 ^ (4 - subWidth g) ∧
      (decodePriority v g).2.toNat = v.toNat % 2 ^ subWidth g := by
  obtain ⟨hsub, hpreempt⟩ := bits_eq g
  have hk := subWidth_le g
  have hshift : (BitVec.ofNat 32 (subWidth g)).toNat = subWidth g := by
    rw [BitVec.toNat_ofNat]
    omega
  unfold decodePriority
  rw [hsub, hpreempt]
  simp only [toNat_and_mask _ hk, toNat_and_mask _ (Nat.sub_le 4 _), BitVec.ushiftRight_eq', BitVec.toNat_ushiftRight, hshift,
    Nat.shiftRight_eq_div_pow, and_self]

/-- **Round trip.** Level and urgency come back, each cut to its bits; the byte holds no other bit. -/
theorem decodePriority_encodePriority (g p sub : BitVec 32) :
    (decodePriority (encodePriority g p sub &&& 15) g).1.toNat = p.toNat % 2 ^ (4 - subWidth g) ∧
      (decodePriority (encodePriority g p sub &&& 15) g).2.toNat = sub.toNat % 2 ^ subWidth g := by
  have hk := subWidth_le g
  have hvalue := toNat_encodePriority g p sub
  have hlow : sub.toNat % 2 ^ subWidth g < 2 ^ subWidth g := Nat.mod_lt _ (Nat.two_pow_pos _)
  have hhigh : p.toNat % 2 ^ (4 - subWidth g) < 2 ^ (4 - subWidth g) := Nat.mod_lt _ (Nat.two_pow_pos _)
  have hfour : 2 ^ (4 - subWidth g) * 2 ^ subWidth g = 16 := by rw [← Nat.pow_add, Nat.sub_add_cancel hk]
  have hfits : (encodePriority g p sub).toNat < 16 := by
    have hnext : (p.toNat % 2 ^ (4 - subWidth g) + 1) * 2 ^ subWidth g ≤ 16 := hfour ▸ Nat.mul_le_mul_right _ hhigh
    rw [Nat.add_mul] at hnext
    omega
  have hmask : (encodePriority g p sub &&& 15).toNat = (encodePriority g p sub).toNat := by
    have hfifteen : (15 : BitVec 32).toNat = 2 ^ 4 - 1 := rfl
    rw [BitVec.toNat_and, hfifteen, Nat.and_two_pow_sub_one_eq_mod, Nat.mod_eq_of_lt hfits]
  obtain ⟨hlevel, hsub⟩ := decodePriority_toNat (encodePriority g p sub &&& 15) g
  rw [hlevel, hsub, hmask, hvalue]
  refine ⟨?_, ?_⟩
  · rw [Nat.mul_comm, Nat.mul_add_div (Nat.two_pow_pos _), Nat.div_eq_of_lt hlow, Nat.add_zero, Nat.mod_mod]
  · rw [Nat.mul_comm, Nat.mul_add_mod, Nat.mod_eq_of_lt hlow]

end Pack

section Registers

variable {r : Nvic} {i j : ℤ} {p sub g : BitVec 32}

/-- The key of the write is right, so it counts. -/
theorem getPriorityGrouping_setPriorityGrouping : (r.setPriorityGrouping g).getPriorityGrouping = g &&& 0x07 := by
  have hkey : (r.aircr &&& ~~~(0xFFFF#32 <<< 16 ||| 7#32 <<< 8) ||| 0x5FA#32 <<< 16 ||| (g &&& 0x07) <<< 8) >>> 16 = 0x5FA := by
    ext n hn
    interval_cases n <;> simp
  unfold setPriorityGrouping writeAircr
  dsimp only
  rw [if_pos hkey, getPriorityGrouping]
  ext n hn
  interval_cases n <;> simp

theorem ip_setPriorityGrouping : (r.setPriorityGrouping g).ip = r.ip ∧ (r.setPriorityGrouping g).iser = r.iser := by
  unfold setPriorityGrouping writeAircr
  dsimp only
  split_ifs <;> exact ⟨rfl, rfl⟩

theorem subWidth_mask : subWidth (g &&& 0x07) = subWidth g := by
  have hseven : (0x07 : BitVec 32).toNat = 2 ^ 3 - 1 := rfl
  rw [subWidth, subWidth, BitVec.toNat_and, hseven, Nat.and_two_pow_sub_one_eq_mod, Nat.mod_mod]

@[simp] theorem getPriorityGrouping_setPriority : (r.setPriority i p).getPriorityGrouping = r.getPriorityGrouping := by
  unfold setPriority
  split_ifs <;> rfl

@[simp] theorem getPriorityGrouping_enableIRQ : (r.enableIRQ i).getPriorityGrouping = r.getPriorityGrouping := by
  unfold enableIRQ
  split_ifs <;> rfl

@[simp] theorem getPriority_enableIRQ : (r.enableIRQ i).getPriority j = r.getPriority j := by
  unfold enableIRQ
  split_ifs <;> rfl

/-- The byte has room for four bits. -/
theorem byte_eq (p : BitVec 32) :
    ((p <<< (8 - prioBits) &&& 0xFF).setWidth 8).setWidth 32 >>> (8 - prioBits) = p &&& 15 := by
  unfold prioBits
  ext n hn
  interval_cases n <;> simp

@[simp] theorem getPriority_setPriority_same : (r.setPriority i p).getPriority i = p &&& 15 := by
  unfold setPriority getPriority
  dsimp only
  split_ifs with hi <;> simp only [Function.update_self] <;> exact byte_eq p

theorem toNat_irqn (hi : 0 ≤ i) (hlt : i < 240) : (BitVec.ofInt 32 i).toNat = i.toNat := by
  rw [BitVec.toNat_ofInt]
  omega

/-- An interrupt's byte is not another's, nor an exception's. -/
theorem getPriority_setPriority_of_ne (hi : 0 ≤ i ∧ i < 240) (hj : j < 240) (hne : i ≠ j) :
    (r.setPriority j p).getPriority i = r.getPriority i := by
  unfold setPriority getPriority
  dsimp only
  rw [if_pos hi.1, if_pos hi.1]
  by_cases hdevice : 0 ≤ j
  · have hapart : i.toNat ≠ j.toNat := by omega
    rw [if_pos hdevice, toNat_irqn hi.1 hi.2, toNat_irqn hdevice hj]
    dsimp only
    rw [Function.update_of_ne hapart]
  · rw [if_neg hdevice]

theorem enabled_setPriority : (r.setPriority j p).enabled i = r.enabled i := by
  unfold setPriority
  split_ifs <;> rfl

theorem enabled_enableIRQ (hi : 0 ≤ i ∧ i < 240) (hj : 0 ≤ j ∧ j < 240) :
    (r.enableIRQ j).enabled i = (decide (i = j) || r.enabled i) := by
  have hword : (BitVec.ofInt 32 j >>> 5).toNat = j.toNat / 32 := by
    rw [BitVec.toNat_ushiftRight, toNat_irqn hj.1 hj.2, Nat.shiftRight_eq_div_pow]
  have hbit : (BitVec.ofInt 32 j &&& 0x1F).toNat = j.toNat % 32 := by
    have hmask : (0x1F : BitVec 32).toNat = 2 ^ 5 - 1 := rfl
    rw [BitVec.toNat_and, toNat_irqn hj.1 hj.2, hmask, Nat.and_two_pow_sub_one_eq_mod]
  unfold enableIRQ enabled
  rw [if_pos hj.1]
  dsimp only
  rw [hword]
  by_cases hsame : i.toNat / 32 = j.toNat / 32
  · have hiff : i.toNat % 32 = j.toNat % 32 ↔ i = j := by omega
    have hlt : i.toNat % 32 < 32 := Nat.mod_lt _ (by decide)
    rw [hsame, Function.update_self, BitVec.getLsbD_or, BitVec.shiftLeft_eq', hbit, Bool.or_comm]
    congr 1
    simp only [BitVec.getLsbD_shiftLeft, BitVec.getLsbD_one, hlt, decide_true, Bool.true_and]
    by_cases heq : i = j
    · simp [heq]
    · have hne : i.toNat % 32 ≠ j.toNat % 32 := fun h => heq (hiff.mp h)
      simp only [heq, decide_false]
      by_cases hlow : i.toNat % 32 < j.toNat % 32
      · simp [hlow]
      · have hpos : i.toNat % 32 - j.toNat % 32 ≠ 0 := by omega
        simp [hpos]
  · have hne : i ≠ j := by
      rintro rfl
      exact hsame rfl
    rw [Function.update_of_ne hsame]
    simp [hne]

end Registers

section Calls

variable {r : Nvic} {i j : ℤ} {p sub : BitVec 32}

@[simp] theorem getPriorityGrouping_irqEnable : (nvicIrqEnable j p sub r).getPriorityGrouping = r.getPriorityGrouping := by
  simp [nvicIrqEnable]

theorem urgency_irqEnable_same : (nvicIrqEnable i p sub r).urgency i =
    (p.toNat % 2 ^ (4 - subWidth r.getPriorityGrouping), sub.toNat % 2 ^ subWidth r.getPriorityGrouping) := by
  obtain ⟨hlevel, hsub⟩ := decodePriority_encodePriority r.getPriorityGrouping p sub
  rw [urgency, getPriorityGrouping_irqEnable, nvicIrqEnable, getPriority_enableIRQ, getPriority_setPriority_same]
  exact Prod.ext hlevel hsub

theorem urgency_irqEnable_of_ne (hi : 0 ≤ i ∧ i < 240) (hj : j < 240) (hne : i ≠ j) :
    (nvicIrqEnable j p sub r).urgency i = r.urgency i := by
  rw [urgency, getPriorityGrouping_irqEnable, nvicIrqEnable, getPriority_enableIRQ, getPriority_setPriority_of_ne hi hj hne,
    urgency]

theorem enabled_irqEnable (hi : 0 ≤ i ∧ i < 240) (hj : 0 ≤ j ∧ j < 240) :
    (nvicIrqEnable j p sub r).enabled i = (decide (i = j) || r.enabled i) := by
  rw [nvicIrqEnable, enabled_enableIRQ hi hj, enabled_setPriority]

end Calls

end Nvic

/-- A call of `nvic_irq_enable` for one of the 240 interrupts of the processor. -/
structure NvicCall where
  irqn : Fin 240
  preemptPriority : BitVec 32
  subPriority : BitVec 32

def NvicCall.exec (r : Nvic) (c : NvicCall) : Nvic := nvicIrqEnable c.irqn.val c.preemptPriority c.subPriority r

/-- **The priorities are those of the last calls.** From every content of the registers, after
`nvic_priority_group_config` with any group and any calls of `nvic_irq_enable`, the hardware finds at each
interrupt what its last call asked for, cut to the bits of the group, and enabled are the interrupts called for
and those that were. -/
theorem nvic_priorities (r : Nvic) (group : BitVec 32) (calls : List NvicCall) (irqn : Fin 240) :
    let r' := run NvicCall.exec (nvicPriorityGroupConfig group r) calls
    r'.urgency irqn.val = ((calls.reverse.find? fun c => c.irqn = irqn).elim
      ((nvicPriorityGroupConfig group r).urgency irqn.val)
      fun c => (c.preemptPriority.toNat % 2 ^ (4 - Nvic.subWidth group), c.subPriority.toNat % 2 ^ Nvic.subWidth group)) ∧
    (r'.enabled irqn.val = true ↔ r.enabled irqn.val = true ∨ ∃ c ∈ calls, c.irqn = irqn) := by
  intro r'
  have hgroup : ∀ calls, (run NvicCall.exec (nvicPriorityGroupConfig group r) calls).getPriorityGrouping = group &&& 0x07 := by
    intro calls
    induction calls using List.reverseRecOn with
    | nil => exact Nvic.getPriorityGrouping_setPriorityGrouping
    | append_singleton calls c ih => rw [run_concat, NvicCall.exec, Nvic.getPriorityGrouping_irqEnable, ih]
  have hdevice : ∀ n : Fin 240, (0 : ℤ) ≤ n.val ∧ (n.val : ℤ) < 240 := by
    intro n
    omega
  induction calls using List.reverseRecOn with
  | nil =>
      have hiser := (Nvic.ip_setPriorityGrouping (r := r) (g := group)).2
      refine ⟨rfl, ?_⟩
      simp only [r', run_nil, List.not_mem_nil, false_and, exists_false, or_false, Nvic.enabled, nvicPriorityGroupConfig, hiser]
  | append_singleton calls c ih =>
      have hlast : r' = c.exec (run NvicCall.exec (nvicPriorityGroupConfig group r) calls) := run_concat _ _ _
      rw [hlast, NvicCall.exec, List.reverse_append, List.reverse_singleton, List.singleton_append,
        Nvic.enabled_irqEnable (hdevice irqn) (hdevice c.irqn)]
      by_cases hirq : c.irqn = irqn
      · rw [List.find?_cons_of_pos (by simp [hirq]), hirq, Nvic.urgency_irqEnable_same, hgroup, Nvic.subWidth_mask]
        refine ⟨rfl, ?_⟩
        simp [hirq]
      · have hne : (irqn.val : ℤ) ≠ c.irqn.val := by
          intro heq
          exact hirq (Fin.ext (by omega))
        rw [List.find?_cons_of_neg (by simp [hirq]), Nvic.urgency_irqEnable_of_ne (hdevice irqn) (hdevice c.irqn).2 hne]
        refine ⟨ih.1, ?_⟩
        simp [hne, hirq, ih.2]

end FocFirmware
