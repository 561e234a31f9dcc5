import FocFirmware.DelayFunctions

/-! The delays of `wk_system.c`, which share SysTick with those of `delay.c` but never reload it: they measure
how far a free-running counter has come, modulo its 24 bits. Whether a delay ends depends on how far apart the
counter is read; it is never over too early. -/

namespace FocFirmware

open Countdown

def tickCountMax : UInt32 := 0xFFFFFF

def wkStepDelayMs : UInt32 := 50

/-- `wk_timebase_init`: `ticks_count_us`, and the timer. -/
def wkTimebaseInit (ahbFreq : UInt32) (pace : Pace) (t : Timer) : UInt32 × Timer :=
  let t := Timer.tick^[pace.afterVal] t.writeValue
  let t := Timer.tick^[pace.afterLoad] (t.writeReload 24 tickCountMax.toNat)
  (ahbFreq / 1000000, t.enable)

/-- The ticks between two values of the counter, which counts down. -/
def wkDelta (preTicks curTicks : UInt32) : UInt32 :=
  if curTicks ≤ preTicks then preTicks - curTicks else tickCountMax - curTicks + preTicks + 1

/-- The loop of `wk_delay_us`: the ticks that have passed when it ends, and the timer. `pace i` and one more
tick pass before read `i`. -/
def wkPoll (preTicks delayTicks : UInt32) : ℕ → (ℕ → ℕ) → Timer → Option (ℕ × Timer)
  | 0, _, _ => none
  | fuel + 1, pace, t =>
      let t := Timer.tick^[pace 0 + 1] t
      if wkDelta preTicks (UInt32.ofNat t.value) < delayTicks then
        (wkPoll preTicks delayTicks fuel (fun i => pace (i + 1)) t).map fun (waited, t) => (pace 0 + 1 + waited, t)
      else some (pace 0 + 1, t)

/-- The ticks that pass before `pre_ticks` is read, and before each read of the loop. -/
structure WkPace where
  before : ℕ
  reads : ℕ → ℕ

def wkDelayUs (ticksCountUs delay : UInt32) (fuel : ℕ) (pace : WkPace) (t : Timer) : Option (ℕ × Timer) :=
  let t := Timer.tick^[pace.before] t
  (wkPoll (UInt32.ofNat t.value) (delay * ticksCountUs) fuel pace.reads t).map fun (waited, t) => (pace.before + waited, t)

/-- The microseconds of one round of `wk_delay_ms`, and the milliseconds left after it. -/
def wkDelayRound (delay : UInt32) : UInt32 × UInt32 :=
  if delay > wkStepDelayMs then (wkStepDelayMs * 1000, delay - wkStepDelayMs) else (delay * 1000, 0)

theorem wkDelayRound_toNat (delay : UInt32) : ∃ n ≤ 50, (wkDelayRound delay).1.toNat = n * 1000 ∧
    (wkDelayRound delay).2.toNat + n = delay.toNat ∧ (delay ≠ 0 → 0 < n) := by
  by_cases hlong : delay > wkStepDelayMs
  · have hle : 50 < delay.toNat := UInt32.lt_iff_toNat_lt.mp hlong
    have hrest : (delay - wkStepDelayMs).toNat = delay.toNat - 50 := UInt32.toNat_sub_of_le _ _ (UInt32.le_of_lt hlong)
    rw [wkDelayRound, if_pos hlong]
    refine ⟨50, le_rfl, rfl, ?_, fun _ => by decide⟩
    rw [hrest]
    omega
  · have hle : delay.toNat ≤ 50 := UInt32.le_iff_toNat_le.mp (UInt32.not_lt.mp hlong)
    have hthousand : (1000 : UInt32).toNat = 1000 := rfl
    rw [wkDelayRound, if_neg hlong]
    refine ⟨delay.toNat, hle, ?_, Nat.zero_add _, fun hne => ?_⟩
    · rw [UInt32.toNat_mul, hthousand]
      exact Nat.mod_eq_of_lt (by omega)
    · by_contra hzero
      exact hne (UInt32.toNat_inj.mp (Nat.eq_zero_of_not_pos hzero))

/-- `paces i` belongs to round `i`. -/
def wkDelayMs (ticksCountUs : UInt32) (fuel : ℕ) (paces : ℕ → WkPace) (delay : UInt32) (t : Timer) : Option (ℕ × Timer) :=
  if delay = 0 then some (0, t)
  else
    (wkDelayUs ticksCountUs (wkDelayRound delay).1 fuel (paces 0) t).bind fun (waited, t) =>
      (wkDelayMs ticksCountUs fuel (fun i => paces (i + 1)) (wkDelayRound delay).2 t).map fun (rest, t) => (waited + rest, t)
  termination_by delay.toNat
  decreasing_by
    obtain ⟨n, -, -, hsum, hpos⟩ := wkDelayRound_toNat delay
    have := hpos ‹_›
    omega

/-- As `wk_timebase_init` leaves the timer. -/
structure FreeRunning (t : Timer) : Prop where
  enabled : t.enabled = true
  reload : t.reload = 2 ^ 24 - 1
  value_le : t.value ≤ t.reload

section Counter

variable {t : Timer}

theorem FreeRunning.ticks (h : FreeRunning t) (n : ℕ) : FreeRunning (Timer.tick^[n] t) := by
  obtain ⟨hreload, henabled⟩ := ticks_reload n t
  refine ⟨henabled.trans h.enabled, hreload.trans h.reload, ?_⟩
  rw [hreload]
  exact ticks_value_le h.value_le n

/-- However the timer was set up before, with 24 bits. -/
theorem freeRunning_timebase (ahbFreq : UInt32) (pace : Pace) (h : t.reload < 2 ^ 24) :
    FreeRunning (wkTimebaseInit ahbFreq pace t).2 := by
  have hvalue := ticks_value_le (t := t.writeValue) (Nat.zero_le _) pace.afterVal
  generalize hcleared : Timer.tick^[pace.afterVal] t.writeValue = u at hvalue
  have hload : (u.writeReload 24 tickCountMax.toNat).reload = 2 ^ 24 - 1 := rfl
  have hle : (u.writeReload 24 tickCountMax.toNat).value ≤ (u.writeReload 24 tickCountMax.toNat).reload := by
    rw [hload]
    exact hvalue.trans (Nat.le_sub_one_of_lt h)
  obtain ⟨hreload, -⟩ := ticks_reload pace.afterLoad (u.writeReload 24 tickCountMax.toNat)
  rw [wkTimebaseInit, hcleared]
  refine ⟨rfl, hreload.trans hload, ?_⟩
  exact (ticks_value_le hle pace.afterLoad).trans_eq hreload.symm

theorem wkDelta_toNat {pre cur : ℕ} (hpre : pre < 2 ^ 24) (hcur : cur < 2 ^ 24) :
    (wkDelta (UInt32.ofNat pre) (UInt32.ofNat cur)).toNat = (pre + 2 ^ 24 - cur) % 2 ^ 24 := by
  have hp : (UInt32.ofNat pre).toNat = pre := by
    rw [UInt32.toNat_ofNat']
    exact Nat.mod_eq_of_lt (by omega)
  have hc : (UInt32.ofNat cur).toNat = cur := by
    rw [UInt32.toNat_ofNat']
    exact Nat.mod_eq_of_lt (by omega)
  have hmax : tickCountMax.toNat = 2 ^ 24 - 1 := rfl
  rw [wkDelta]
  split_ifs with hle
  · have hle' : cur ≤ pre := by rwa [UInt32.le_iff_toNat_le, hp, hc] at hle
    rw [UInt32.toNat_sub_of_le _ _ hle, hp, hc]
    omega
  · have hgt : pre < cur := by rwa [UInt32.le_iff_toNat_le, hp, hc, not_le] at hle
    have hsub : UInt32.ofNat cur ≤ tickCountMax := by
      rw [UInt32.le_iff_toNat_le, hc, hmax]
      omega
    rw [UInt32.toNat_add, UInt32.toNat_add, UInt32.toNat_sub_of_le _ _ hsub, hp, hc, hmax, UInt32.toNat_one]
    omega

/-- **The measure** is the time that has passed, modulo the counter's period. -/
theorem FreeRunning.elapsed (h : FreeRunning t) (n : ℕ) :
    (wkDelta (UInt32.ofNat t.value) (UInt32.ofNat (Timer.tick^[n] t).value)).toNat = n % 2 ^ 24 := by
  have hvalue := ticks_value h.enabled h.value_le n
  have hle := h.value_le
  rw [h.reload] at hvalue hle
  have hnext := Nat.mod_lt (t.value + (2 ^ 24 - 1) * n) (by decide : 0 < 2 ^ 24)
  rw [wkDelta_toNat (by omega) (by rw [hvalue]; omega), hvalue]
  omega

end Counter

section Poll

variable {t : Timer} {delayTicks : UInt32} {fuel e g waited : ℕ} {pace : ℕ → ℕ} {last : Timer}

/-- One read, `e` ticks after the delay began. -/
theorem wkPoll_succ (h : FreeRunning t) :
    wkPoll (UInt32.ofNat t.value) delayTicks (fuel + 1) pace (Timer.tick^[e] t) =
      if (e + (pace 0 + 1)) % 2 ^ 24 < delayTicks.toNat then
        (wkPoll (UInt32.ofNat t.value) delayTicks fuel (fun i => pace (i + 1)) (Timer.tick^[e + (pace 0 + 1)] t)).map
          fun (waited, t) => (pace 0 + 1 + waited, t)
      else some (pace 0 + 1, Timer.tick^[e + (pace 0 + 1)] t) := by
  have hread : Timer.tick^[pace 0 + 1] (Timer.tick^[e] t) = Timer.tick^[e + (pace 0 + 1)] t := by
    rw [Nat.add_comm e]
    exact (Function.iterate_add_apply _ _ _ _).symm
  rw [wkPoll]
  simp only [hread, UInt32.lt_iff_toNat_lt, h.elapsed]

/-- **Never too early**: the ticks that have passed when the loop ends are no fewer than asked for. -/
theorem le_of_wkPoll (h : FreeRunning t)
    (hpoll : wkPoll (UInt32.ofNat t.value) delayTicks fuel pace (Timer.tick^[e] t) = some (waited, last)) :
    delayTicks.toNat ≤ e + waited ∧ last = Timer.tick^[e + waited] t := by
  induction fuel generalizing e pace waited with
  | zero => cases hpoll
  | succ fuel ih =>
      rw [wkPoll_succ h] at hpoll
      split_ifs at hpoll with hlt
      · rw [Option.map_eq_some_iff] at hpoll
        obtain ⟨⟨rest, u⟩, hrest, heq⟩ := hpoll
        cases heq
        rw [← Nat.add_assoc]
        exact ih hrest
      · cases hpoll
        have hmod := Nat.mod_le (e + (pace 0 + 1)) (2 ^ 24)
        exact ⟨by omega, rfl⟩

/-- Read often enough, the loop does not miss the last part of the counter's period. -/
theorem wkPoll_ends (h : FreeRunning t) (hfits : delayTicks.toNat + g ≤ 2 ^ 24) (hpace : ∀ i, pace i < g)
    (he : e < delayTicks.toNat) (hfuel : delayTicks.toNat ≤ e + fuel) : ∃ waited last,
      wkPoll (UInt32.ofNat t.value) delayTicks fuel pace (Timer.tick^[e] t) = some (waited, last) ∧
        e + waited < delayTicks.toNat + g := by
  induction fuel generalizing e pace with
  | zero => omega
  | succ fuel ih =>
      have hgap := hpace 0
      rw [wkPoll_succ h]
      split_ifs with hlt
      · rw [Nat.mod_eq_of_lt (by omega)] at hlt
        obtain ⟨rest, u, hrest, hbound⟩ := ih (fun i => hpace (i + 1)) hlt (by omega)
        rw [hrest]
        exact ⟨_, _, rfl, by omega⟩
      · exact ⟨_, _, rfl, by omega⟩

/-- Reads that skip just that part: one more tick each, then from the last one before it to the next period. -/
def skippingPace (delayTicks : UInt32) (i : ℕ) : ℕ :=
  if i % delayTicks.toNat = delayTicks.toNat - 1 then 2 ^ 24 - delayTicks.toNat else 0

theorem wkPoll_skipped (h : FreeRunning t) (hpos : 0 < delayTicks.toNat) (hle : delayTicks.toNat ≤ 2 ^ 24) (i : ℕ)
    (hpace : ∀ j, pace j = skippingPace delayTicks (i + j)) (he : e % 2 ^ 24 = i % delayTicks.toNat) :
    wkPoll (UInt32.ofNat t.value) delayTicks fuel pace (Timer.tick^[e] t) = none := by
  induction fuel generalizing e i pace with
  | zero => rfl
  | succ fuel ih =>
      have hres := Nat.mod_lt i hpos
      have hsucc : (i + 1) % delayTicks.toNat = (i % delayTicks.toNat + 1) % delayTicks.toNat := (Nat.mod_add_mod i _ 1).symm
      -- the residue of the time goes through those below the delay, one by one
      have hfirst : pace 0 = skippingPace delayTicks i := hpace 0
      have hnext : (e + (pace 0 + 1)) % 2 ^ 24 = (i + 1) % delayTicks.toNat := by
        rw [hfirst, skippingPace, hsucc]
        split_ifs with hlast
        · rw [hlast, Nat.sub_add_cancel hpos, Nat.mod_self]
          omega
        · rw [Nat.mod_eq_of_lt (by omega : i % delayTicks.toNat + 1 < delayTicks.toNat)]
          omega
      rw [wkPoll_succ h, hnext, if_pos (Nat.mod_lt _ hpos), ih (i + 1) (fun j => ?_) hnext]
      · rfl
      · rw [hpace, Nat.add_right_comm, Nat.add_assoc]

/-- No ticks are over at the first read, whatever the counter does. -/
theorem wkPoll_zero (preTicks : UInt32) (t : Timer) (hzero : delayTicks.toNat = 0) :
    wkPoll preTicks delayTicks (fuel + 1) pace t = some (pace 0 + 1, Timer.tick^[pace 0 + 1] t) := by
  rw [wkPoll]
  simp only [UInt32.lt_iff_toNat_lt, hzero, Nat.not_lt_zero, if_false]

/-- A delay that the counter cannot hold never ends. -/
theorem wkPoll_overlong (h : FreeRunning t) (hlong : 2 ^ 24 ≤ delayTicks.toNat) :
    wkPoll (UInt32.ofNat t.value) delayTicks fuel pace (Timer.tick^[e] t) = none := by
  induction fuel generalizing e pace with
  | zero => rfl
  | succ fuel ih =>
      rw [wkPoll_succ h, if_pos ((Nat.mod_lt _ (by decide)).trans_le hlong), ih]
      rfl

end Poll

/-- **`wk_delay_us`.** On the free-running counter it never ends before its ticks have passed. It ends however the
counter is read, as long as no two reads are more than `g` ticks apart, exactly when the ticks and `g` fit the
counter, or there are none; it is then at most `g` ticks late, and less than `g` when there are some. -/
theorem wk_delay_us_iff (ticksCountUs delay : UInt32) {t : Timer} (h : FreeRunning t) (g : ℕ) (hg : 0 < g) :
    let ticks := (delay * ticksCountUs).toNat
    (∀ fuel pace waited last, wkDelayUs ticksCountUs delay fuel pace t = some (waited, last) → pace.before + ticks ≤ waited) ∧
      ((∀ pace : WkPace, (∀ i, pace.reads i < g) → ∃ fuel, (wkDelayUs ticksCountUs delay fuel pace t).isSome) ↔
        ticks = 0 ∨ ticks + g ≤ 2 ^ 24) ∧
      (ticks = 0 ∨ ticks + g ≤ 2 ^ 24 → ∀ pace : WkPace, (∀ i, pace.reads i < g) → ∃ waited last,
        wkDelayUs ticksCountUs delay (ticks + 1) pace t = some (waited, last) ∧ waited ≤ pace.before + ticks + g ∧
          (0 < ticks → waited < pace.before + ticks + g)) := by
  intro ticks
  have hends : ticks = 0 ∨ ticks + g ≤ 2 ^ 24 → ∀ pace : WkPace, (∀ i, pace.reads i < g) → ∃ waited last,
      wkDelayUs ticksCountUs delay (ticks + 1) pace t = some (waited, last) ∧ waited ≤ pace.before + ticks + g ∧
        (0 < ticks → waited < pace.before + ticks + g) := by
    intro hfits pace hpace
    by_cases hzero : ticks = 0
    · have hread := hpace 0
      rw [wkDelayUs, wkPoll_zero _ _ hzero, hzero]
      exact ⟨_, _, rfl, by omega, fun hpos => absurd hpos (lt_irrefl 0)⟩
    · obtain ⟨waited, last, hcall, hbound⟩ := wkPoll_ends (e := 0) (h.ticks pace.before)
        (hfits.resolve_left hzero) hpace (Nat.pos_of_ne_zero hzero) (by omega : _ ≤ 0 + (ticks + 1))
      refine ⟨pace.before + waited, last, ?_, by omega, fun _ => by omega⟩
      rw [wkDelayUs, Option.map_eq_some_iff]
      exact ⟨_, hcall, rfl⟩
  refine ⟨fun fuel pace waited last hcall => ?_, ⟨fun hall => ?_, fun hfits pace hpace => ?_⟩, hends⟩
  · obtain ⟨⟨polled, u⟩, hpoll, heq⟩ := Option.map_eq_some_iff.mp hcall
    cases heq
    have hle := (le_of_wkPoll (e := 0) (h.ticks pace.before) hpoll).1
    rw [Nat.zero_add] at hle
    exact Nat.add_le_add_left hle _
  · by_contra hmiss
    rw [not_or, not_le] at hmiss
    obtain ⟨hne, hlong⟩ := hmiss
    have hnever : ∃ pace : ℕ → ℕ, (∀ i, pace i < g) ∧ ∀ fuel, wkDelayUs ticksCountUs delay fuel ⟨0, pace⟩ t = none := by
      by_cases hle : ticks ≤ 2 ^ 24
      · refine ⟨skippingPace (delay * ticksCountUs), fun i => ?_, fun fuel => Option.map_eq_none_iff.mpr ?_⟩
        · rw [skippingPace]
          split_ifs <;> omega
        · exact wkPoll_skipped (e := 0) h (Nat.pos_of_ne_zero hne) hle 0 (fun j => by rw [Nat.zero_add])
            (by rw [Nat.zero_mod, Nat.zero_mod])
      · refine ⟨fun _ => 0, fun _ => hg, fun fuel => Option.map_eq_none_iff.mpr ?_⟩
        exact wkPoll_overlong (e := 0) h (Nat.le_of_lt (not_le.mp hle))
    obtain ⟨pace, hpace, hnone⟩ := hnever
    obtain ⟨fuel, hsome⟩ := hall ⟨0, pace⟩ hpace
    rw [hnone] at hsome
    cases hsome
  · obtain ⟨waited, last, hcall, -⟩ := hends hfits pace hpace
    exact ⟨_, Option.isSome_iff_exists.mpr ⟨_, hcall⟩⟩

/-- One millisecond at 240 MHz after the start of the time base, the counter read at least every 100 ticks. -/
theorem wk_delay_us_iff_at_240_mhz :
    let started := wkTimebaseInit 240000000 ⟨0, 0, fun _ => 0⟩ ⟨0, 0, false, false⟩
    let ticks := UInt32.toNat (1000 * started.1)
    (∀ fuel pace waited last, wkDelayUs started.1 1000 fuel pace started.2 = some (waited, last) →
        pace.before + ticks ≤ waited) ∧
      ((∀ pace : WkPace, (∀ i, pace.reads i < 100) → ∃ fuel, (wkDelayUs started.1 1000 fuel pace started.2).isSome) ↔
        ticks = 0 ∨ ticks + 100 ≤ 2 ^ 24) ∧
      (ticks = 0 ∨ ticks + 100 ≤ 2 ^ 24 → ∀ pace : WkPace, (∀ i, pace.reads i < 100) → ∃ waited last,
        wkDelayUs started.1 1000 (ticks + 1) pace started.2 = some (waited, last) ∧ waited ≤ pace.before + ticks + 100 ∧
          (0 < ticks → waited < pace.before + ticks + 100)) :=
  wk_delay_us_iff (240000000 / 1000000) 1000 (freeRunning_timebase 240000000 _ (by decide)) 100 (by decide)

end FocFirmware
