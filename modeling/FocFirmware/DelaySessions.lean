import FocFirmware.DelayWorkbench

/-! Both kinds of delay on one timer. A call of `delay.c` sets SysTick up afresh and leaves it off, so the
delays of `wk_system.c`, which only read it, wait for ever after it. -/

namespace FocFirmware

open Countdown

/-- The loop of `delay_sec` with so many passes to come; its index has the width of its bound. -/
def delaySecRounds (fac : DelayFactors) (fuel : ℕ) : (ℕ → ℕ → Pace) → ℕ → Timer → Option (ℕ × Timer)
  | _, 0, t => some (0, t)
  | paces, rounds + 1, t =>
      (delayMs fac fuel (paces 0) 500 t).bind fun (first, t) =>
        (delayMs fac fuel (paces 1) 500 t).bind fun (second, t) =>
          (delaySecRounds fac fuel (fun i => paces (i + 2)) rounds t).map fun (rest, t) => (first + second + rest, t)

def delaySec (fac : DelayFactors) (fuel : ℕ) (paces : ℕ → ℕ → Pace) (sec : UInt16) (t : Timer) : Option (ℕ × Timer) :=
  delaySecRounds fac fuel paces sec.toNat t

/-- The ticks that pass before a call, in the rounds of `delay.c`, and in those of `wk_system.c`. -/
structure DelayPaces where
  before : ℕ
  rounds : ℕ → ℕ → Pace
  wkRounds : ℕ → WkPace

inductive DelayCall where
  | us (nus : UInt32)
  | ms (nms : UInt16)
  | sec (seconds : UInt16)
  | wkUs (delay : UInt32)
  | wkMs (delay : UInt32)

namespace DelayCall

/-- The call at a clock of `mhz` MHz. -/
def exec (mhz fuel : ℕ) (paces : DelayPaces) (t : Timer) : DelayCall → Option (ℕ × Timer)
  | us nus => delayUs (delayInit (UInt32.ofNat (mhz * 1000000))) nus fuel (paces.rounds 0 0) t
  | ms nms => delayMs (delayInit (UInt32.ofNat (mhz * 1000000))) fuel (paces.rounds 0) nms t
  | sec seconds => delaySec (delayInit (UInt32.ofNat (mhz * 1000000))) fuel paces.rounds seconds t
  | wkUs delay => wkDelayUs (UInt32.ofNat (mhz * 1000000) / 1000000) delay fuel (paces.wkRounds 0) t
  | wkMs delay => wkDelayMs (UInt32.ofNat (mhz * 1000000) / 1000000) fuel paces.wkRounds delay t

/-- The ticks that were asked for. -/
def asked (mhz : ℕ) : DelayCall → ℕ
  | us nus => nus.toNat * mhz
  | ms nms => nms.toNat * (1000 * mhz)
  | sec seconds => seconds.toNat * (1000000 * mhz)
  | wkUs delay => delay.toNat * mhz
  | wkMs delay => delay.toNat * (1000 * mhz)

/-- What the callers of the two microsecond delays must see to, with reads at most `g` ticks apart. -/
def Fits (mhz g : ℕ) : DelayCall → Prop
  | us nus => 0 < nus.toNat * mhz ∧ nus.toNat * mhz < 2 ^ 24
  | wkUs delay => delay.toNat * mhz + g ≤ 2 ^ 24
  | _ => True

/-- The call leaves SysTick off. -/
def Stops : DelayCall → Prop
  | us _ => True
  | ms nms => nms ≠ 0
  | sec seconds => seconds ≠ 0
  | _ => False

/-- The call needs SysTick to count. -/
def Counts : DelayCall → Prop
  | wkUs delay => delay ≠ 0
  | wkMs delay => delay ≠ 0
  | _ => False

end DelayCall

/-- One call after the other: the ticks that have passed in the calls, and the timer. -/
def delaySession (mhz fuel : ℕ) : List (DelayCall × DelayPaces) → Timer → Option (ℕ × Timer)
  | [], t => some (0, t)
  | (call, paces) :: rest, t =>
      (call.exec mhz fuel paces (Timer.tick^[paces.before] t)).bind fun (waited, t) =>
        (delaySession mhz fuel rest t).map fun (later, t) => (waited + later, t)

/-- As every call of `delay.c` leaves the timer. -/
structure Stopped (t : Timer) : Prop where
  disabled : t.enabled = false
  value_zero : t.value = 0

section Stopped

variable {fac : DelayFactors} {fuel waited : ℕ} {t last : Timer}

theorem stopped_of_sysTickWait {load : UInt32} {pace : Pace} (h : sysTickWait load fuel pace t = some (waited, last)) :
    Stopped last := by
  rw [sysTickWait_eq, Option.map_eq_some_iff] at h
  obtain ⟨⟨polled, u⟩, -, heq⟩ := h
  cases heq
  exact ⟨rfl, rfl⟩

theorem stopped_of_delayMs {paces : ℕ → Pace} {nms : UInt16} (h : delayMs fac fuel paces nms t = some (waited, last))
    (hstart : nms ≠ 0 ∨ Stopped t) : Stopped last := by
  induction paces, nms, t using delayMs.induct fac generalizing waited with
  | case1 paces t =>
      rw [delayMs_zero] at h
      cases h
      exact hstart.resolve_left fun hne => hne rfl
  | case2 paces nms t hne ih =>
      rw [delayMs, if_neg hne, Option.bind_eq_some_iff] at h
      obtain ⟨⟨first, u⟩, hwait, hmap⟩ := h
      rw [Option.map_eq_some_iff] at hmap
      obtain ⟨⟨rest, v⟩, hrest, heq⟩ := hmap
      cases heq
      exact ih u hrest (.inr (stopped_of_sysTickWait hwait))

theorem stopped_of_delaySecRounds {paces : ℕ → ℕ → Pace} {rounds : ℕ}
    (h : delaySecRounds fac fuel paces rounds t = some (waited, last)) (hstart : rounds ≠ 0 ∨ Stopped t) : Stopped last := by
  induction rounds generalizing paces waited t with
  | zero =>
      cases h
      exact hstart.resolve_left fun hne => hne rfl
  | succ rounds ih =>
      rw [delaySecRounds, Option.bind_eq_some_iff] at h
      obtain ⟨⟨first, u⟩, hfirst, h⟩ := h
      rw [Option.bind_eq_some_iff] at h
      obtain ⟨⟨second, v⟩, hsecond, h⟩ := h
      rw [Option.map_eq_some_iff] at h
      obtain ⟨⟨rest, w⟩, hrest, heq⟩ := h
      cases heq
      exact ih hrest (.inr (stopped_of_delayMs hsecond (.inl (by decide))))

/-- Every pass waits for 500 ms twice. -/
theorem delaySecRounds_spec (hpos : 0 < fac.facMs.toNat) (hfits : 50 * fac.facMs.toNat < 2 ^ 24) (paces : ℕ → ℕ → Pace)
    (rounds : ℕ) (t : Timer) : (2 ^ 24 ≤ fuel → (delaySecRounds fac fuel paces rounds t).isSome) ∧
      ∀ waited last, delaySecRounds fac fuel paces rounds t = some (waited, last) →
        rounds * (1000 * fac.facMs.toNat) ≤ waited := by
  have hhalf : (500 : UInt16).toNat = 500 := rfl
  induction rounds generalizing paces t with
  | zero =>
      refine ⟨fun _ => rfl, fun waited last _ => ?_⟩
      rw [Nat.zero_mul]
      exact Nat.zero_le _
  | succ rounds ih =>
      rw [delaySecRounds]
      refine ⟨fun hfuel => ?_, fun waited last h => ?_⟩
      · obtain ⟨⟨first, u⟩, hfirst⟩ :=
          Option.isSome_iff_exists.mp ((delayMs_spec fac t hpos hfits fuel (paces 0) 500).1 hfuel)
        obtain ⟨⟨second, v⟩, hsecond⟩ :=
          Option.isSome_iff_exists.mp ((delayMs_spec fac u hpos hfits fuel (paces 1) 500).1 hfuel)
        simp only [hfirst, Option.bind_some, hsecond, Option.isSome_map]
        exact (ih _ v).1 hfuel
      · rw [Option.bind_eq_some_iff] at h
        obtain ⟨⟨first, u⟩, hfirst, h⟩ := h
        rw [Option.bind_eq_some_iff] at h
        obtain ⟨⟨second, v⟩, hsecond, h⟩ := h
        rw [Option.map_eq_some_iff] at h
        obtain ⟨⟨rest, w⟩, hrest, heq⟩ := h
        cases heq
        have hle1 := (delayMs_spec fac t hpos hfits fuel (paces 0) 500).2 _ _ hfirst
        have hle2 := (delayMs_spec fac u hpos hfits fuel (paces 1) 500).2 _ _ hsecond
        have hle3 := (ih _ v).2 _ _ hrest
        rw [hhalf] at hle1 hle2
        rw [Nat.succ_mul]
        omega

/-- Off, the counter shows no time passing. -/
theorem wkPoll_stopped (h : Stopped t) {delayTicks : UInt32} {pace : ℕ → ℕ} (hpos : 0 < delayTicks.toNat) :
    wkPoll (UInt32.ofNat t.value) delayTicks fuel pace t = none := by
  induction fuel generalizing pace with
  | zero => rfl
  | succ fuel ih =>
      have hstill : wkDelta (UInt32.ofNat t.value) (UInt32.ofNat t.value) < delayTicks := by
        rw [h.value_zero, UInt32.lt_iff_toNat_lt]
        exact hpos
      simp only [wkPoll, ticks_of_disabled h.disabled, if_pos hstill, ih]
      rfl

theorem wkDelayUs_stopped (h : Stopped t) {ticksCountUs delay : UInt32} {pace : WkPace}
    (hpos : 0 < (delay * ticksCountUs).toNat) : wkDelayUs ticksCountUs delay fuel pace t = none := by
  rw [wkDelayUs, ticks_of_disabled h.disabled, wkPoll_stopped h hpos]
  rfl

theorem Stopped.ticks (h : Stopped t) (n : ℕ) : Stopped (Timer.tick^[n] t) := by
  rw [ticks_of_disabled h.disabled]
  exact h

end Stopped

section FreeRunning

variable {t : Timer} {ticksCountUs : UInt32} {fuel g waited : ℕ} {last : Timer}

/-- Without ticks a delay ends at its first read. -/
theorem wkDelayUs_zero {delay : UInt32} {pace : WkPace} (hzero : (delay * ticksCountUs).toNat = 0) :
    wkDelayUs ticksCountUs delay (fuel + 1) pace t =
      some (pace.before + (pace.reads 0 + 1), Timer.tick^[pace.before + (pace.reads 0 + 1)] t) := by
  have hread : Timer.tick^[pace.reads 0 + 1] (Timer.tick^[pace.before] t) =
      Timer.tick^[pace.before + (pace.reads 0 + 1)] t := by
    rw [Nat.add_comm pace.before]
    exact (Function.iterate_add_apply _ _ _ _).symm
  simp only [wkDelayUs, wkPoll_zero _ _ hzero, Option.map_some, hread]

/-- One delay on the running counter, which runs on. -/
theorem wkDelayUs_spec (h : FreeRunning t) (delay : UInt32) {pace : WkPace} (hpace : ∀ i, pace.reads i < g)
    (hfits : (delay * ticksCountUs).toNat + g ≤ 2 ^ 24) :
    (2 ^ 24 ≤ fuel → (wkDelayUs ticksCountUs delay fuel pace t).isSome) ∧
      ∀ waited last, wkDelayUs ticksCountUs delay fuel pace t = some (waited, last) →
        (delay * ticksCountUs).toNat ≤ waited ∧ FreeRunning last := by
  have hbegun := h.ticks pace.before
  refine ⟨fun hfuel => ?_, fun waited last hcall => ?_⟩
  · by_cases hzero : (delay * ticksCountUs).toNat = 0
    · obtain ⟨fuel, rfl⟩ := Nat.exists_eq_succ_of_ne_zero (by omega : fuel ≠ 0)
      rw [Nat.succ_eq_add_one, wkDelayUs_zero hzero]
      rfl
    · obtain ⟨waited, last, hpoll, -⟩ :=
        wkPoll_ends (e := 0) hbegun hfits hpace (Nat.pos_of_ne_zero hzero) (by omega : _ ≤ 0 + fuel)
      exact Option.isSome_iff_exists.mpr ⟨_, Option.map_eq_some_iff.mpr ⟨_, hpoll, rfl⟩⟩
  · obtain ⟨⟨polled, u⟩, hpoll, heq⟩ := Option.map_eq_some_iff.mp hcall
    cases heq
    obtain ⟨hle, rfl⟩ := le_of_wkPoll (e := 0) hbegun hpoll
    exact ⟨by omega, hbegun.ticks _⟩

/-- The ticks of one round. -/
theorem wkDelayRound_ticks (hfits : 50 * (1000 * ticksCountUs.toNat) < 2 ^ 24) (delay : UInt32) : ∃ n,
    ((wkDelayRound delay).1 * ticksCountUs).toNat = n * (1000 * ticksCountUs.toNat) ∧ n ≤ 50 ∧
      (wkDelayRound delay).2.toNat + n = delay.toNat ∧ (delay ≠ 0 → 0 < n) := by
  obtain ⟨n, hn, hround, hsum, hpos⟩ := wkDelayRound_toNat delay
  have hsmall : n * (1000 * ticksCountUs.toNat) < 2 ^ 24 := (Nat.mul_le_mul_right _ hn).trans_lt hfits
  refine ⟨n, ?_, hn, hsum, hpos⟩
  rw [UInt32.toNat_mul, hround, Nat.mul_assoc]
  exact Nat.mod_eq_of_lt (by omega)

/-- **`wk_delay_ms`** waits for its milliseconds round by round, and leaves the counter running. -/
theorem wkDelayMs_spec (hfits : 50 * (1000 * ticksCountUs.toNat) + g ≤ 2 ^ 24) (hg : 0 < g)
    (paces : ℕ → WkPace) (hpace : ∀ i j, (paces i).reads j < g) (delay : UInt32) (h : FreeRunning t) :
    (2 ^ 24 ≤ fuel → (wkDelayMs ticksCountUs fuel paces delay t).isSome) ∧
      ∀ waited last, wkDelayMs ticksCountUs fuel paces delay t = some (waited, last) →
        delay.toNat * (1000 * ticksCountUs.toNat) ≤ waited ∧ FreeRunning last := by
  induction paces, delay, t using wkDelayMs.induct with
  | case1 paces t =>
      rw [wkDelayMs, if_pos rfl]
      refine ⟨fun _ => rfl, fun waited last hcall => ?_⟩
      cases hcall
      exact ⟨by simp, h⟩
  | case2 paces delay t hne ih =>
      obtain ⟨n, hticks, hn, hsum, -⟩ := wkDelayRound_ticks (by omega : 50 * (1000 * ticksCountUs.toNat) < 2 ^ 24) delay
      have hsmall : n * (1000 * ticksCountUs.toNat) ≤ 50 * (1000 * ticksCountUs.toNat) := Nat.mul_le_mul_right _ hn
      have hround := @wkDelayUs_spec t ticksCountUs fuel g h (wkDelayRound delay).1 (paces 0) (hpace 0) (by omega)
      rw [wkDelayMs, if_neg hne]
      refine ⟨fun hfuel => ?_, fun waited last hcall => ?_⟩
      · obtain ⟨⟨first, u⟩, hfirst⟩ := Option.isSome_iff_exists.mp (hround.1 hfuel)
        have hrunning := (hround.2 first u hfirst).2
        rw [hfirst, Option.bind_some, Option.isSome_map]
        exact (ih u (fun i j => hpace (i + 1) j) hrunning).1 hfuel
      · rw [Option.bind_eq_some_iff] at hcall
        obtain ⟨⟨first, u⟩, hfirst, hmap⟩ := hcall
        rw [Option.map_eq_some_iff] at hmap
        obtain ⟨⟨rest, v⟩, hrest, heq⟩ := hmap
        cases heq
        obtain ⟨hle, hrunning⟩ := hround.2 first u hfirst
        obtain ⟨hlater, hlast⟩ := (ih u (fun i j => hpace (i + 1) j) hrunning).2 rest _ hrest
        refine ⟨?_, hlast⟩
        rw [← hsum, Nat.add_mul]
        omega

/-- After a call of `delay.c` it waits for ever. -/
theorem wkDelayMs_stopped (hpos : 0 < ticksCountUs.toNat) (hfits : 50 * (1000 * ticksCountUs.toNat) < 2 ^ 24)
    {paces : ℕ → WkPace} {delay : UInt32} (hne : delay ≠ 0) (h : Stopped t) :
    wkDelayMs ticksCountUs fuel paces delay t = none := by
  obtain ⟨n, hticks, -, -, hround⟩ := wkDelayRound_ticks hfits delay
  have hnever : wkDelayUs ticksCountUs (wkDelayRound delay).1 fuel (paces 0) t = none := by
    apply wkDelayUs_stopped h
    rw [hticks]
    exact Nat.mul_pos (hround hne) (Nat.mul_pos (by decide) hpos)
  rw [wkDelayMs, if_neg hne, hnever]
  rfl

end FreeRunning

section Session

variable {mhz fuel g : ℕ} {t : Timer}

/-- What one clock gives both libraries. -/
theorem clock_toNat (hmhz : mhz ≤ 240) :
    (delayInit (UInt32.ofNat (mhz * 1000000))).facUs.toNat = mhz ∧
      (delayInit (UInt32.ofNat (mhz * 1000000))).facMs.toNat = 1000 * mhz ∧
      (UInt32.ofNat (mhz * 1000000) / 1000000).toNat = mhz :=
  ⟨(delayInit_toNat hmhz).1, (delayInit_toNat hmhz).2, (delayInit_toNat hmhz).1⟩

/-- A call that can be made on this timer: it ends, has waited long enough, and leaves the counter off or as
it found it. -/
structure CallDone (mhz fuel : ℕ) (paces : DelayPaces) (t : Timer) (call : DelayCall) : Prop where
  ends : 2 ^ 24 ≤ fuel → (call.exec mhz fuel paces t).isSome
  waits : ∀ waited last, call.exec mhz fuel paces t = some (waited, last) → call.asked mhz ≤ waited
  stopped : ∀ waited last, call.exec mhz fuel paces t = some (waited, last) → call.Stops ∨ Stopped t → Stopped last
  running : ∀ waited last, call.exec mhz fuel paces t = some (waited, last) → ¬call.Stops → FreeRunning t → FreeRunning last

/-- The calls that leave a running counter running. -/
theorem callDone_of_running {paces : DelayPaces} {call : DelayCall} (h : FreeRunning t) (hstops : ¬call.Stops)
    (hends : 2 ^ 24 ≤ fuel → (call.exec mhz fuel paces t).isSome)
    (hdone : ∀ waited last, call.exec mhz fuel paces t = some (waited, last) →
      call.asked mhz ≤ waited ∧ FreeRunning last) : CallDone mhz fuel paces t call := by
  refine ⟨hends, fun waited last hcall => (hdone waited last hcall).1, fun waited last hcall hstopped => ?_,
    fun waited last hcall _ _ => (hdone waited last hcall).2⟩
  have henabled := (hstopped.resolve_left hstops).disabled
  rw [h.enabled] at henabled
  cases henabled

theorem us_done (hmhz : mhz ≤ 240) {nus : UInt32} (hfits : (DelayCall.us nus).Fits mhz g) (paces : DelayPaces) :
    CallDone mhz fuel paces t (.us nus) := by
  obtain ⟨hus, -, -⟩ := clock_toNat hmhz
  obtain ⟨hpos, hsmall⟩ := hfits
  have hload := mul_toNat_mod nus (delayInit (UInt32.ofNat (mhz * 1000000))).facUs
  rw [hus, Nat.mod_eq_of_lt hsmall] at hload
  have hne : (nus * (delayInit (UInt32.ofNat (mhz * 1000000))).facUs).toNat % 2 ^ 24 ≠ 0 := by omega
  refine ⟨fun hfuel => sysTickWait_isSome _ _ _ hne hfuel, fun waited last hcall => ?_, fun waited last hcall _ => ?_,
    fun _ _ _ hstops => absurd trivial hstops⟩
  · have hlt := lt_of_sysTickWait hne hcall
    rw [hload] at hlt
    exact hlt.le
  · exact stopped_of_sysTickWait hcall

theorem ms_done (hlow : 1 ≤ mhz) (hhigh : mhz ≤ 240) (nms : UInt16) (paces : DelayPaces) :
    CallDone mhz fuel paces t (.ms nms) := by
  obtain ⟨-, hms, -⟩ := clock_toNat hhigh
  obtain ⟨hends, hwaits⟩ :=
    delayMs_spec (delayInit (UInt32.ofNat (mhz * 1000000))) t (by omega) (by omega) fuel (paces.rounds 0) nms
  rw [hms] at hwaits
  refine ⟨hends, hwaits, fun waited last hcall hstops => stopped_of_delayMs hcall hstops, fun waited last hcall hzero => ?_⟩
  obtain rfl : nms = 0 := by_contra hzero
  rw [DelayCall.exec, delayMs_zero] at hcall
  cases hcall
  exact id

theorem sec_done (hlow : 1 ≤ mhz) (hhigh : mhz ≤ 240) (seconds : UInt16) (paces : DelayPaces) :
    CallDone mhz fuel paces t (.sec seconds) := by
  obtain ⟨-, hms, -⟩ := clock_toNat hhigh
  obtain ⟨hends, hwaits⟩ := @delaySecRounds_spec (delayInit (UInt32.ofNat (mhz * 1000000))) fuel (by omega) (by omega)
    paces.rounds seconds.toNat t
  rw [hms, ← Nat.mul_assoc 1000] at hwaits
  refine ⟨hends, hwaits, fun waited last hcall hstops => ?_, fun waited last hcall hzero => ?_⟩
  · refine stopped_of_delaySecRounds hcall (hstops.imp_left fun hne hzero => hne ?_)
    exact UInt16.toNat_inj.mp hzero
  · obtain rfl : seconds = 0 := by_contra hzero
    cases hcall
    exact id

theorem wkUs_done (hmhz : mhz ≤ 240) {delay : UInt32} (hfits : (DelayCall.wkUs delay).Fits mhz g) {paces : DelayPaces}
    (hpace : ∀ i, (paces.wkRounds 0).reads i < g) (hready : FreeRunning t ∨ delay = 0) :
    CallDone mhz fuel paces t (.wkUs delay) := by
  obtain ⟨-, -, hwk⟩ := clock_toNat hmhz
  have hfits' : delay.toNat * mhz + g ≤ 2 ^ 24 := hfits
  have hticks : (delay * (UInt32.ofNat (mhz * 1000000) / 1000000)).toNat = delay.toNat * mhz := by
    rw [UInt32.toNat_mul, hwk]
    exact Nat.mod_eq_of_lt (by omega)
  rcases hready with hrunning | rfl
  · obtain ⟨hends, hdone⟩ := @wkDelayUs_spec t (UInt32.ofNat (mhz * 1000000) / 1000000) fuel g hrunning delay _ hpace
      (hticks ▸ hfits')
    rw [hticks] at hdone
    exact callDone_of_running hrunning id hends hdone
  · have hzero : (0 * (UInt32.ofNat (mhz * 1000000) / 1000000)).toNat = 0 := by rw [hticks, UInt32.toNat_zero, Nat.zero_mul]
    cases fuel with
    | zero =>
        exact ⟨fun h => absurd h (by decide), fun _ _ h => (by cases h), fun _ _ h => (by cases h), fun _ _ h => (by cases h)⟩
    | succ fuel =>
        have hcall : (DelayCall.wkUs 0).exec mhz (fuel + 1) paces t = _ := wkDelayUs_zero hzero
        refine ⟨fun _ => hcall ▸ rfl, fun waited last h => ?_, fun waited last h hstopped => ?_,
          fun waited last h _ hrunning => ?_⟩ <;>
          cases hcall.symm.trans h
        · rw [DelayCall.asked, UInt32.toNat_zero, Nat.zero_mul]
          exact Nat.zero_le _
        · exact (hstopped.resolve_left id).ticks _
        · exact hrunning.ticks _

theorem wkMs_done (hhigh : mhz ≤ 240) (hg : 0 < g) (hfits : 50000 * mhz + g ≤ 2 ^ 24) (delay : UInt32)
    {paces : DelayPaces} (hpace : ∀ i j, (paces.wkRounds i).reads j < g) (hready : FreeRunning t ∨ delay = 0) :
    CallDone mhz fuel paces t (.wkMs delay) := by
  obtain ⟨-, -, hwk⟩ := clock_toNat hhigh
  rcases hready with hrunning | rfl
  · obtain ⟨hends, hdone⟩ := @wkDelayMs_spec t (UInt32.ofNat (mhz * 1000000) / 1000000) fuel g (by omega) hg
      paces.wkRounds hpace delay hrunning
    rw [hwk] at hdone
    exact callDone_of_running hrunning id hends hdone
  · have hcall : (DelayCall.wkMs 0).exec mhz fuel paces t = some (0, t) := by rw [DelayCall.exec, wkDelayMs, if_pos rfl]
    refine ⟨fun _ => hcall ▸ rfl, fun waited last h => ?_, fun waited last h hstopped => ?_,
      fun waited last h _ hrunning => ?_⟩ <;>
      cases hcall.symm.trans h
    · rw [DelayCall.asked, UInt32.toNat_zero, Nat.zero_mul]
    · exact hstopped.resolve_left id
    · exact hrunning

/-- Every call can be made on a running counter, and one that does not need it on a stopped one too. -/
theorem call_done (hlow : 1 ≤ mhz) (hhigh : mhz ≤ 240) (hg : 0 < g) (hclock : 50000 * mhz + g ≤ 2 ^ 24) {call : DelayCall}
    (hfits : call.Fits mhz g) {paces : DelayPaces} (hpace : ∀ i j, (paces.wkRounds i).reads j < g)
    (hready : FreeRunning t ∨ ¬call.Counts) : CallDone mhz fuel paces t call := by
  cases call with
  | us nus => exact us_done hhigh hfits paces
  | ms nms => exact ms_done hlow hhigh nms paces
  | sec seconds => exact sec_done hlow hhigh seconds paces
  | wkUs delay => exact wkUs_done hhigh hfits (hpace 0) (hready.imp_right not_not.mp)
  | wkMs delay => exact wkMs_done hhigh hg hclock delay hpace (hready.imp_right not_not.mp)

/-- On a stopped counter a call that needs it waits for ever. -/
theorem call_hangs (hlow : 1 ≤ mhz) (hhigh : mhz ≤ 240) (hclock : 50000 * mhz < 2 ^ 24) {call : DelayCall}
    (hfits : call.Fits mhz g) (hcounts : call.Counts) (h : Stopped t) (paces : DelayPaces) :
    call.exec mhz fuel paces t = none := by
  obtain ⟨-, -, hwk⟩ := clock_toNat hhigh
  cases call with
  | us nus => cases hcounts
  | ms nms => cases hcounts
  | sec seconds => cases hcounts
  | wkMs delay =>
      refine wkDelayMs_stopped (hwk.symm ▸ hlow) ?_ hcounts h
      rw [hwk, ← Nat.mul_assoc]
      exact hclock
  | wkUs delay =>
      have hfits' : delay.toNat * mhz + g ≤ 2 ^ 24 := hfits
      have hdelay : 0 < delay.toNat := Nat.pos_of_ne_zero fun hzero => hcounts (UInt32.toNat_inj.mp hzero)
      have hticks : 0 < delay.toNat * mhz := Nat.mul_pos hdelay hlow
      apply wkDelayUs_stopped h
      rw [UInt32.toNat_mul, hwk, Nat.mod_eq_of_lt (by omega)]
      exact hticks

end Session

/-- What the callers see to: the delays fit, and those of `wk_system.c` read the counter at least every `g` ticks. -/
def SessionFits (mhz g : ℕ) (session : List (DelayCall × DelayPaces)) : Prop :=
  ∀ call ∈ session, call.1.Fits mhz g ∧ ∀ i j, (call.2.wkRounds i).reads j < g

section Session

variable {mhz g : ℕ}

/-- When a session ends, and how long it has waited then. -/
structure SessionDone (mhz : ℕ) (session : List (DelayCall × DelayPaces)) (t : Timer) (allowed : Prop) : Prop where
  ends : allowed → (delaySession mhz (2 ^ 24) session t).isSome
  needed : ∀ fuel waited last, delaySession mhz fuel session t = some (waited, last) →
    allowed ∧ (session.map fun call => call.1.asked mhz).sum ≤ waited

theorem delaySession_cons_eq_some {fuel waited : ℕ} {call : DelayCall} {paces : DelayPaces}
    {session : List (DelayCall × DelayPaces)} {t last : Timer}
    (h : delaySession mhz fuel ((call, paces) :: session) t = some (waited, last)) : ∃ first u rest,
      call.exec mhz fuel paces (Timer.tick^[paces.before] t) = some (first, u) ∧
        delaySession mhz fuel session u = some (rest, last) ∧
        waited = first + rest := by
  rw [delaySession, Option.bind_eq_some_iff] at h
  obtain ⟨⟨first, u⟩, hfirst, hmap⟩ := h
  rw [Option.map_eq_some_iff] at hmap
  obtain ⟨⟨rest, v⟩, hrest, heq⟩ := hmap
  cases heq
  exact ⟨first, u, rest, hfirst, hrest, rfl⟩

/-- One call more in front, with what the rest needs of the timer it leaves. -/
theorem SessionDone.cons {call : DelayCall} {paces : DelayPaces} {session : List (DelayCall × DelayPaces)} {t : Timer}
    {rest : Prop} (hcall : ∀ fuel, CallDone mhz fuel paces (Timer.tick^[paces.before] t) call)
    (hrest : ∀ fuel waited last, call.exec mhz fuel paces (Timer.tick^[paces.before] t) = some (waited, last) →
      SessionDone mhz session last rest) :
    SessionDone mhz ((call, paces) :: session) t rest := by
  refine ⟨fun hallowed => ?_, fun fuel waited last h => ?_⟩
  · obtain ⟨⟨first, u⟩, hfirst⟩ := Option.isSome_iff_exists.mp ((hcall _).ends le_rfl)
    rw [delaySession, hfirst, Option.bind_some, Option.isSome_map]
    exact (hrest _ first u hfirst).ends hallowed
  · obtain ⟨first, u, later, hfirst, hlater, rfl⟩ := delaySession_cons_eq_some h
    obtain ⟨hallowed, hsum⟩ := (hrest fuel first u hfirst).needed fuel later last hlater
    refine ⟨hallowed, ?_⟩
    rw [List.map_cons, List.sum_cons]
    exact Nat.add_le_add ((hcall fuel).waits first u hfirst) hsum

variable (hlow : 1 ≤ mhz) (hhigh : mhz ≤ 240) (hg : 0 < g) (hclock : 50000 * mhz + g ≤ 2 ^ 24)

include hlow hhigh hg hclock

/-- A stopped counter stays stopped, so nothing may need it. -/
theorem session_stopped (session : List (DelayCall × DelayPaces)) (hfits : SessionFits mhz g session) {t : Timer}
    (h : Stopped t) : SessionDone mhz session t (∀ call ∈ session, ¬call.1.Counts) := by
  induction session generalizing t with
  | nil =>
      refine ⟨fun _ => rfl, fun fuel waited last _ => ⟨fun call hcall => ?_, Nat.zero_le _⟩⟩
      cases hcall
  | cons first session ih =>
      obtain ⟨call, paces⟩ := first
      obtain ⟨⟨hcall, hpace⟩, hrest⟩ := List.forall_mem_cons.mp hfits
      simp only [List.forall_mem_cons]
      by_cases hcounts : call.Counts
      · have hnone : ∀ fuel, call.exec mhz fuel paces (Timer.tick^[paces.before] t) = none := fun fuel =>
          call_hangs hlow hhigh (by omega) hcall hcounts (h.ticks _) paces
        refine ⟨fun hallowed => absurd hcounts hallowed.1, fun fuel waited last hsome => ?_⟩
        rw [delaySession, hnone] at hsome
        cases hsome
      · have hdone : ∀ fuel, CallDone mhz fuel paces (Timer.tick^[paces.before] t) call := fun fuel =>
          call_done hlow hhigh hg hclock hcall hpace (.inr hcounts)
        have hsession := SessionDone.cons hdone fun fuel waited last hexec =>
          ih hrest ((hdone fuel).stopped waited last hexec (.inr (h.ticks _)))
        exact ⟨fun hallowed => hsession.ends hallowed.2, fun fuel waited last hsome =>
          ⟨⟨hcounts, (hsession.needed fuel waited last hsome).1⟩, (hsession.needed fuel waited last hsome).2⟩⟩

/-- A running counter runs until a call stops it. -/
theorem session_running (session : List (DelayCall × DelayPaces)) (hfits : SessionFits mhz g session) {t : Timer}
    (h : FreeRunning t) :
    SessionDone mhz session t (session.Pairwise fun first later => first.1.Stops → ¬later.1.Counts) := by
  induction session generalizing t with
  | nil => exact ⟨fun _ => rfl, fun fuel waited last _ => ⟨.nil, Nat.zero_le _⟩⟩
  | cons first session ih =>
      obtain ⟨call, paces⟩ := first
      obtain ⟨⟨hcall, hpace⟩, hrest⟩ := List.forall_mem_cons.mp hfits
      have hdone : ∀ fuel, CallDone mhz fuel paces (Timer.tick^[paces.before] t) call := fun fuel =>
        call_done hlow hhigh hg hclock hcall hpace (.inl (h.ticks _))
      by_cases hstops : call.Stops
      · have hsession := SessionDone.cons hdone fun fuel waited last hexec =>
          session_stopped hlow hhigh hg hclock session hrest ((hdone fuel).stopped waited last hexec (.inl hstops))
        have hiff : (∀ later ∈ session, ¬later.1.Counts) ↔
            ((call, paces) :: session).Pairwise fun first later => first.1.Stops → ¬later.1.Counts := by
          rw [List.pairwise_cons]
          refine ⟨fun hnone => ⟨fun later hlater _ => hnone later hlater, ?_⟩,
            fun hpair later hlater => hpair.1 later hlater hstops⟩
          exact List.pairwise_of_forall_mem_list fun a _ b hb _ => hnone b hb
        rwa [hiff] at hsession
      · have hsession := SessionDone.cons hdone fun fuel waited last hexec =>
          ih hrest ((hdone fuel).running waited last hexec hstops (h.ticks _))
        have hiff : (session.Pairwise fun first later => first.1.Stops → ¬later.1.Counts) ↔
            ((call, paces) :: session).Pairwise fun first later => first.1.Stops → ¬later.1.Counts := by
          rw [List.pairwise_cons]
          exact ⟨fun hpair => ⟨fun later _ hcall => absurd hcall hstops, hpair⟩, And.right⟩
        rwa [hiff] at hsession

end Session

/-- **Sessions.** After `wk_timebase_init`, when no two reads in a delay of `wk_system.c` are more than `g` ticks apart
and 50 ms and `g` fit the counter, calls of both libraries that fit it come to an end one after the other exactly when
no delay of `wk_system.c` follows one of `delay.c`; a session that ends has waited for as many ticks at least as were
asked for. -/
theorem delay_session_ends_iff (mhz g : ℕ) (hlow : 1 ≤ mhz) (hhigh : mhz ≤ 240) (hg : 0 < g)
    (hclock : 50000 * mhz + g ≤ 2 ^ 24) (session : List (DelayCall × DelayPaces)) (hfits : SessionFits mhz g session)
    (pace : Pace) (t : Timer) (h : t.reload < 2 ^ 24) :
    let started := (wkTimebaseInit (UInt32.ofNat (mhz * 1000000)) pace t).2
    ((∃ fuel, (delaySession mhz fuel session started).isSome) ↔
      session.Pairwise fun first later => first.1.Stops → ¬later.1.Counts) ∧
      ∀ fuel waited last, delaySession mhz fuel session started = some (waited, last) →
        (session.map fun call => call.1.asked mhz).sum ≤ waited := by
  intro started
  have hrunning : FreeRunning started := freeRunning_timebase _ pace h
  have hsession := session_running hlow hhigh hg hclock session hfits hrunning
  refine ⟨⟨fun ⟨fuel, hsome⟩ => ?_, fun hpair => ⟨2 ^ 24, hsession.ends hpair⟩⟩,
    fun fuel waited last hsome => (hsession.needed fuel waited last hsome).2⟩
  obtain ⟨⟨waited, last⟩, heq⟩ := Option.isSome_iff_exists.mp hsome
  exact (hsession.needed fuel waited last heq).1

/-- A delay of either library at 240 MHz, in the one order that ends. -/
theorem delay_session_ends_iff_at_240_mhz :
    let eager : DelayPaces := ⟨0, fun _ _ => ⟨0, 0, fun _ => 0⟩, fun _ => ⟨0, fun _ => 0⟩⟩
    let session : List (DelayCall × DelayPaces) := [(.wkUs 1000, eager), (.ms 1500, eager), (.sec 2, eager)]
    let started := (wkTimebaseInit (UInt32.ofNat (240 * 1000000)) ⟨0, 0, fun _ => 0⟩ ⟨0, 0, false, false⟩).2
    ((∃ fuel, (delaySession 240 fuel session started).isSome) ↔
      session.Pairwise fun first later => first.1.Stops → ¬later.1.Counts) ∧
      ∀ fuel waited last, delaySession 240 fuel session started = some (waited, last) →
        (session.map fun call => call.1.asked 240).sum ≤ waited := by
  intro eager session started
  refine delay_session_ends_iff 240 100 (by decide) (by decide) (by decide) (by decide) session ?_ _ _ (by decide)
  simp [SessionFits, session, eager, DelayCall.Fits]

end FocFirmware
