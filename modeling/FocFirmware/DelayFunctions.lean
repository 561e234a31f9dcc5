import FocFirmware.BaseCountdown
import Mathlib.Tactic.NormNum

/-! `delay_us` and `delay_ms` on SysTick, a down-counter of 24 bits. `delay_ms` waits in steps of 50 ms, each
of which fits the counter at every clock; `delay_us` multiplies once and writes what is left of the product.
Any number of ticks may pass between two accesses to the timer. -/

namespace FocFirmware

open Countdown

/-- `fac_us` and `fac_ms`. -/
structure DelayFactors where
  facUs : UInt32
  facMs : UInt32

def delayInit (systemCoreClock : UInt32) : DelayFactors :=
  let facUs := systemCoreClock / 1000000
  ⟨facUs, facUs * 1000⟩

def stepDelayMs : UInt16 := 50

/-- The ticks that pass after the write of LOAD, after the write of VAL, and before each read of CTRL. -/
structure Pace where
  afterLoad : ℕ
  afterVal : ℕ
  reads : ℕ → ℕ

/-- What both functions do with a value for LOAD: the ticks that have passed when the loop ends, and the
timer, switched off. -/
def sysTickWait (load : UInt32) (fuel : ℕ) (pace : Pace) (t : Timer) : Option (ℕ × Timer) :=
  let t := Timer.tick^[pace.afterLoad] (t.writeReload 24 load.toNat)
  let t := Timer.tick^[pace.afterVal] t.writeValue
  (poll fuel pace.reads t.enable).map fun (waited, t) =>
    (pace.afterLoad + pace.afterVal + waited, t.disable.writeValue)

def delayUs (fac : DelayFactors) (nus : UInt32) (fuel : ℕ) (pace : Pace) (t : Timer) : Option (ℕ × Timer) :=
  sysTickWait (nus * fac.facUs) fuel pace t

/-- The value for LOAD in one round of `delay_ms`, and the milliseconds left after it. -/
def delayRound (fac : DelayFactors) (nms : UInt16) : UInt32 × UInt16 :=
  if nms > stepDelayMs then (stepDelayMs.toUInt32 * fac.facMs, nms - stepDelayMs) else (nms.toUInt32 * fac.facMs, 0)

theorem delayRound_toNat (fac : DelayFactors) (nms : UInt16) :
    ∃ n ≤ 50, (delayRound fac nms).1.toNat = n * fac.facMs.toNat % 2 ^ 32 ∧ (delayRound fac nms).2.toNat + n = nms.toNat ∧
      (nms ≠ 0 → 0 < n) := by
  by_cases hlong : nms > stepDelayMs
  · have hle : 50 < nms.toNat := UInt16.lt_iff_toNat_lt.mp hlong
    have hrest : (nms - stepDelayMs).toNat = nms.toNat - 50 := UInt16.toNat_sub_of_le _ _ (UInt16.le_of_lt hlong)
    rw [delayRound, if_pos hlong]
    refine ⟨50, le_rfl, UInt32.toNat_mul _ _, ?_, fun _ => by decide⟩
    rw [hrest]
    omega
  · have hle : nms.toNat ≤ 50 := UInt16.le_iff_toNat_le.mp (UInt16.not_lt.mp hlong)
    rw [delayRound, if_neg hlong]
    refine ⟨nms.toNat, hle, UInt32.toNat_mul _ _, Nat.zero_add _, fun hne => ?_⟩
    by_contra hzero
    exact hne (UInt16.toNat_inj.mp (Nat.eq_zero_of_not_pos hzero))

/-- `paces i` belongs to round `i`. -/
def delayMs (fac : DelayFactors) (fuel : ℕ) (paces : ℕ → Pace) (nms : UInt16) (t : Timer) : Option (ℕ × Timer) :=
  if nms = 0 then some (0, t)
  else
    (sysTickWait (delayRound fac nms).1 fuel (paces 0) t).bind fun (waited, t) =>
      (delayMs fac fuel (fun i => paces (i + 1)) (delayRound fac nms).2 t).map fun (rest, t) => (waited + rest, t)
  termination_by nms.toNat
  decreasing_by
    obtain ⟨n, -, -, hsum, hpos⟩ := delayRound_toNat fac nms
    have := hpos ‹_›
    omega

/-- However the timer is accessed, the call ends and has waited so many ticks at least. -/
structure WaitsAtLeast {P : Type} (call : ℕ → P → Option (ℕ × Timer)) (ticks : ℕ) : Prop where
  ends : ∀ pace, ∃ fuel, (call fuel pace).isSome
  waits : ∀ fuel pace waited last, call fuel pace = some (waited, last) → ticks ≤ waited

section Wait

variable (load : UInt32) (fuel : ℕ) (pace : Pace) (t : Timer)

/-- The timer when the loop begins. -/
def polledTimer : Timer :=
  (Timer.tick^[pace.afterVal] (Timer.tick^[pace.afterLoad] (t.writeReload 24 load.toNat)).writeValue).enable

theorem polledTimer_spec :
    (polledTimer load pace t).reload = load.toNat % 2 ^ 24 ∧ (polledTimer load pace t).value ≤ load.toNat % 2 ^ 24 ∧
      load.toNat % 2 ^ 24 + 1 ≤ (polledTimer load pace t).left + pace.afterVal := by
  have hload := (ticks_reload pace.afterLoad (t.writeReload 24 load.toNat)).1
  have hval := (ticks_reload pace.afterVal (Timer.tick^[pace.afterLoad] (t.writeReload 24 load.toNat)).writeValue).1
  refine ⟨hval.trans hload, ?_, ?_⟩
  · have hvalue := ticks_value_le (t := (Timer.tick^[pace.afterLoad] (t.writeReload 24 load.toNat)).writeValue)
      (Nat.zero_le _) pace.afterVal
    exact hvalue.trans_eq hload
  · have hleft := left_le_ticks pace.afterVal (Timer.tick^[pace.afterLoad] (t.writeReload 24 load.toNat)).writeValue
    rwa [show (Timer.tick^[pace.afterLoad] (t.writeReload 24 load.toNat)).writeValue.left =
      load.toNat % 2 ^ 24 + 1 from congrArg (· + 1) hload] at hleft

theorem sysTickWait_eq : sysTickWait load fuel pace t = (poll fuel pace.reads (polledTimer load pace t)).map
    fun (waited, t) => (pace.afterLoad + pace.afterVal + waited, t.disable.writeValue) := rfl

variable {load}

theorem polledTimer_waiting (hload : load.toNat % 2 ^ 24 ≠ 0) : (polledTimer load pace t).Waiting :=
  ⟨rfl, rfl, (polledTimer_spec load pace t).1 ▸ Nat.pos_of_ne_zero hload⟩

/-- A wait with a value that the counter takes for zero never ends. -/
theorem sysTickWait_zero (hload : load.toNat % 2 ^ 24 = 0) : sysTickWait load fuel pace t = none := by
  obtain ⟨hreload, hvalue, -⟩ := polledTimer_spec load pace t
  rw [sysTickWait_eq, poll_stopped (hreload.trans hload) (by omega) rfl rfl]
  rfl

theorem sysTickWait_isSome (hload : load.toNat % 2 ^ 24 ≠ 0) (hfuel : 2 ^ 24 ≤ fuel) :
    (sysTickWait load fuel pace t).isSome := by
  obtain ⟨hreload, hvalue, -⟩ := polledTimer_spec load pace t
  have hleft := left_le_of_value_le (hvalue.trans_eq hreload.symm)
  have hbound := Nat.mod_lt load.toNat (by decide : 0 < 2 ^ 24)
  rw [sysTickWait_eq, Option.isSome_map]
  exact poll_isSome (polledTimer_waiting pace t hload) (by omega)

variable {fuel pace t} {waited : ℕ} {last : Timer}

/-- Any other waits one tick more than the counter was given, at least. -/
theorem lt_of_sysTickWait (hload : load.toNat % 2 ^ 24 ≠ 0) (hwait : sysTickWait load fuel pace t = some (waited, last)) :
    load.toNat % 2 ^ 24 < waited := by
  obtain ⟨-, -, hleft⟩ := polledTimer_spec load pace t
  rw [sysTickWait_eq, Option.map_eq_some_iff] at hwait
  obtain ⟨⟨polled, u⟩, hpoll, heq⟩ := hwait
  cases heq
  have hpolled := left_le_of_poll (polledTimer_waiting pace t hload) hpoll
  omega

/-- Reading at every tick, it waits no longer. -/
theorem sysTickWait_eager (hload : load.toNat % 2 ^ 24 ≠ 0)
    (hwait : sysTickWait load fuel ⟨0, 0, fun _ => 0⟩ t = some (waited, last)) : waited ≤ load.toNat % 2 ^ 24 + 1 := by
  obtain ⟨hreload, hvalue, -⟩ := polledTimer_spec load ⟨0, 0, fun _ => 0⟩ t
  have hleft := left_le_of_value_le (hvalue.trans_eq hreload.symm)
  rw [sysTickWait_eq, Option.map_eq_some_iff] at hwait
  obtain ⟨⟨polled, u⟩, hpoll, heq⟩ := hwait
  cases heq
  have hpolled := poll_eager (polledTimer_waiting _ t hload) hpoll
  simp only [Nat.zero_add]
  omega

end Wait

section Delays

variable (fac : DelayFactors) (t : Timer)

theorem mul_toNat_mod (a b : UInt32) : (a * b).toNat % 2 ^ 24 = a.toNat * b.toNat % 2 ^ 24 := by
  rw [UInt32.toNat_mul]
  exact Nat.mod_mod_of_dvd _ (by decide)

theorem delayUs_zero (nus : UInt32) (hzero : nus.toNat * fac.facUs.toNat % 2 ^ 24 = 0) (fuel : ℕ) (pace : Pace) :
    delayUs fac nus fuel pace t = none :=
  sysTickWait_zero fuel pace t ((mul_toNat_mod nus fac.facUs).trans hzero)

/-- Read at every tick, it waits one tick more than is left of the product. -/
theorem delayUs_eager (nus : UInt32) (hne : nus.toNat * fac.facUs.toNat % 2 ^ 24 ≠ 0) : ∃ fuel last,
    delayUs fac nus fuel ⟨0, 0, fun _ => 0⟩ t = some (nus.toNat * fac.facUs.toNat % 2 ^ 24 + 1, last) := by
  rw [← mul_toNat_mod] at hne ⊢
  obtain ⟨⟨waited, last⟩, hwait⟩ := Option.isSome_iff_exists.mp (sysTickWait_isSome _ ⟨0, 0, fun _ => 0⟩ t hne le_rfl)
  have hlong := lt_of_sysTickWait hne hwait
  have hshort := sysTickWait_eager hne hwait
  obtain rfl : waited = (nus * fac.facUs).toNat % 2 ^ 24 + 1 := by omega
  exact ⟨2 ^ 24, last, hwait⟩

/-- **`delay_us`** does what it should exactly when the product is not zero and fits the counter. -/
theorem delayUs_waits_iff (nus : UInt32) :
    WaitsAtLeast (fun fuel pace => delayUs fac nus fuel pace t) (nus.toNat * fac.facUs.toNat) ↔
      0 < nus.toNat * fac.facUs.toNat ∧ nus.toNat * fac.facUs.toNat < 2 ^ 24 := by
  refine ⟨fun hcall => ?_, fun ⟨hpos, hfits⟩ => ?_⟩
  · by_cases hzero : nus.toNat * fac.facUs.toNat % 2 ^ 24 = 0
    · obtain ⟨fuel, hends⟩ := hcall.ends ⟨0, 0, fun _ => 0⟩
      rw [delayUs_zero fac t nus hzero] at hends
      cases hends
    · obtain ⟨fuel, last, hwait⟩ := delayUs_eager fac t nus hzero
      have hlong := hcall.waits fuel _ _ last hwait
      omega
  · have hload := mul_toNat_mod nus fac.facUs
    have hne : (nus * fac.facUs).toNat % 2 ^ 24 ≠ 0 := by omega
    refine ⟨fun pace => ⟨2 ^ 24, sysTickWait_isSome _ pace t hne le_rfl⟩, fun fuel pace waited last hwait => ?_⟩
    have hlt := lt_of_sysTickWait hne hwait
    omega

/-- One round: its value for LOAD is what it takes off the request, and fits the counter. -/
theorem delayRound_load (hpos : 0 < fac.facMs.toNat) (hfits : 50 * fac.facMs.toNat < 2 ^ 24) {nms : UInt16} (hne : nms ≠ 0) :
    (delayRound fac nms).1.toNat % 2 ^ 24 ≠ 0 ∧ nms.toNat * fac.facMs.toNat =
      (delayRound fac nms).1.toNat % 2 ^ 24 + (delayRound fac nms).2.toNat * fac.facMs.toNat := by
  obtain ⟨n, hn, hload, hsum, hround⟩ := delayRound_toNat fac nms
  have hsmall : n * fac.facMs.toNat < 2 ^ 24 := (Nat.mul_le_mul_right _ hn).trans_lt hfits
  have hvalue : (delayRound fac nms).1.toNat % 2 ^ 24 = n * fac.facMs.toNat := by
    rw [hload, Nat.mod_mod_of_dvd _ (by decide), Nat.mod_eq_of_lt hsmall]
  have hticks : 0 < n * fac.facMs.toNat := Nat.mul_pos (hround hne) hpos
  rw [hvalue]
  refine ⟨hticks.ne', ?_⟩
  rw [← hsum, Nat.add_mul, Nat.add_comm]

theorem delayMs_zero (fuel : ℕ) (paces : ℕ → Pace) : delayMs fac fuel paces 0 t = some (0, t) := by
  rw [delayMs, if_pos rfl]

/-- Round by round: enough reads end the call, and it has not waited less than the milliseconds left. -/
theorem delayMs_spec (hpos : 0 < fac.facMs.toNat) (hfits : 50 * fac.facMs.toNat < 2 ^ 24) (fuel : ℕ) (paces : ℕ → Pace)
    (nms : UInt16) : (2 ^ 24 ≤ fuel → (delayMs fac fuel paces nms t).isSome) ∧
      ∀ waited last, delayMs fac fuel paces nms t = some (waited, last) → nms.toNat * fac.facMs.toNat ≤ waited := by
  induction paces, nms, t using delayMs.induct fac with
  | case1 paces t =>
      rw [delayMs_zero]
      refine ⟨fun _ => rfl, fun waited last _ => ?_⟩
      rw [UInt16.toNat_zero, Nat.zero_mul]
      exact Nat.zero_le _
  | case2 paces nms t hne ih =>
      obtain ⟨hload, hsum⟩ := delayRound_load fac hpos hfits hne
      rw [delayMs, if_neg hne]
      refine ⟨fun hfuel => ?_, fun waited last hcall => ?_⟩
      · obtain ⟨⟨waited, u⟩, hwait⟩ := Option.isSome_iff_exists.mp (sysTickWait_isSome fuel (paces 0) t hload hfuel)
        rw [hwait, Option.bind_some, Option.isSome_map]
        exact (ih u).1 hfuel
      · rw [Option.bind_eq_some_iff] at hcall
        obtain ⟨⟨first, u⟩, hwait, hmap⟩ := hcall
        rw [Option.map_eq_some_iff] at hmap
        obtain ⟨⟨rest, v⟩, hlater, heq⟩ := hmap
        cases heq
        have hfirst := lt_of_sysTickWait hload hwait
        have hrest := (ih u).2 rest _ hlater
        omega

/-- **`delay_ms`** always does what it should, when 50 ms fit the counter. -/
theorem delayMs_waits (hpos : 0 < fac.facMs.toNat) (hfits : 50 * fac.facMs.toNat < 2 ^ 24) (nms : UInt16) :
    WaitsAtLeast (fun fuel paces => delayMs fac fuel paces nms t) (nms.toNat * fac.facMs.toNat) where
  ends paces := ⟨2 ^ 24, (delayMs_spec fac t hpos hfits _ paces nms).1 le_rfl⟩
  waits fuel paces := (delayMs_spec fac t hpos hfits fuel paces nms).2

/-- The factors for a clock of a whole number of MHz. -/
theorem delayInit_toNat {mhz : ℕ} (hmhz : mhz ≤ 240) :
    (delayInit (UInt32.ofNat (mhz * 1000000))).facUs.toNat = mhz ∧
      (delayInit (UInt32.ofNat (mhz * 1000000))).facMs.toNat = 1000 * mhz := by
  have hus : (delayInit (UInt32.ofNat (mhz * 1000000))).facUs.toNat = mhz := by
    rw [delayInit, UInt32.toNat_div, UInt32.toNat_ofNat', Nat.mod_eq_of_lt (by omega)]
    exact Nat.mul_div_cancel _ (by decide)
  refine ⟨hus, ?_⟩
  have hthousand : (1000 : UInt32).toNat = 1000 := rfl
  rw [delayInit] at hus ⊢
  rw [UInt32.toNat_mul, hus, hthousand, Nat.mod_eq_of_lt (by omega), Nat.mul_comm]

end Delays

/-- **The delays.** At every clock `delay_ms` ends and waits long enough; `delay_us` does so exactly when the
request is not zero and fits the 24 bits of the counter, also when it is given milliseconds. -/
theorem delays_iff (mhz : ℕ) (hlow : 1 ≤ mhz) (hhigh : mhz ≤ 240) (nus : UInt32) (nms : UInt16) (t : Timer) :
    let fac := delayInit (UInt32.ofNat (mhz * 1000000))
    let usTicks := nus.toNat * fac.facUs.toNat
    let msTicks := nms.toNat * fac.facMs.toNat
    (WaitsAtLeast (fun fuel pace => delayUs fac nus fuel pace t) usTicks ↔ 0 < usTicks ∧ usTicks < 2 ^ 24) ∧
      WaitsAtLeast (fun fuel paces => delayMs fac fuel paces nms t) msTicks ∧
      (WaitsAtLeast (fun fuel pace => delayUs fac (1000 * nms.toUInt32) fuel pace t) msTicks ↔
        0 < msTicks ∧ msTicks < 2 ^ 24) := by
  intro fac usTicks msTicks
  obtain ⟨hus, hms⟩ := delayInit_toNat hhigh
  have hsame : (1000 * nms.toUInt32).toNat * fac.facUs.toNat = msTicks := by
    have hnms := nms.toNat_lt
    have hproduct : (1000 * nms.toUInt32).toNat = 1000 * nms.toNat := by
      have hthousand : (1000 : UInt32).toNat = 1000 := rfl
      rw [UInt32.toNat_mul, UInt16.toNat_toUInt32, hthousand, Nat.mod_eq_of_lt (by omega)]
    simp only [msTicks, fac, hproduct, hus, hms]
    rw [Nat.mul_comm 1000, Nat.mul_assoc]
  refine ⟨delayUs_waits_iff fac t nus, delayMs_waits fac t ?_ ?_ nms, ?_⟩
  · rw [hms]
    omega
  · rw [hms]
    omega
  · rw [← hsame]
    exact delayUs_waits_iff fac t _

/-- 1 ms through `delay_us` and 1500 ms through `delay_ms`, at 240 MHz. -/
theorem delays_at_240_mhz :
    let fac := delayInit (UInt32.ofNat (240 * 1000000))
    let off : Timer := ⟨0, 0, false, false⟩
    WaitsAtLeast (fun fuel pace => delayUs fac 1000 fuel pace off) (UInt32.toNat 1000 * fac.facUs.toNat) ∧
      WaitsAtLeast (fun fuel paces => delayMs fac fuel paces 1500 off) (UInt16.toNat 1500 * fac.facMs.toNat) := by
  obtain ⟨hus, hms, -⟩ := delays_iff 240 (by decide) (by decide) 1000 1500 ⟨0, 0, false, false⟩
  exact ⟨hus.mpr (by decide), hms⟩

/-- At 240 MHz `delay_us` with 0 never ends; with 69906, and with 1000 times 70 ms, it is over long before. -/
theorem delay_us_zero_and_overlong :
    let fac := delayInit (UInt32.ofNat (240 * 1000000))
    let off : Timer := ⟨0, 0, false, false⟩
    let eager : Pace := ⟨0, 0, fun _ => 0⟩
    (∀ fuel pace, delayUs fac 0 fuel pace off = none) ∧
      (∃ fuel last, delayUs fac 69906 fuel eager off = some (225, last) ∧ 225 < 69906 * fac.facUs.toNat) ∧
      ∃ fuel last, delayUs fac (1000 * 70) fuel eager off = some (22785, last) ∧ 22785 < 70 * fac.facMs.toNat := by
  intro fac off eager
  obtain ⟨hus, hms⟩ : fac.facUs.toNat = 240 ∧ fac.facMs.toNat = 1000 * 240 := delayInit_toNat le_rfl
  obtain ⟨fuel, last, hwait⟩ := delayUs_eager fac off 69906 (by rw [hus]; decide)
  obtain ⟨fuelMs, lastMs, hwaitMs⟩ := delayUs_eager fac off (1000 * 70) (by rw [hus]; decide)
  rw [hus] at hwait hwaitMs
  refine ⟨delayUs_zero fac off 0 (by rw [hus]; rfl), ⟨fuel, last, hwait, ?_⟩, fuelMs, lastMs, hwaitMs, ?_⟩
  · rw [hus]
    decide
  · rw [hms]
    decide

end FocFirmware
