import Mathlib.Algebra.Group.Nat.Defs
import Mathlib.Logic.Function.Iterate
import Mathlib.Order.Nat
import Mathlib.Data.Nat.Init

/-! A reloading down-counter and the loop that polls its flag. An enabled counter at zero reloads; reaching
zero from one sets the flag, so with a reload of zero the flag is never set. The loop reads the control
register at any pace; a read clears the flag. -/

namespace FocFirmware.Countdown

structure Timer where
  reload : ℕ
  value : ℕ
  enabled : Bool
  flag : Bool

namespace Timer

def tick (t : Timer) : Timer :=
  if t.enabled then
    match t.value with
    | 0 => { t with value := t.reload }
    | 1 => { t with value := 0, flag := true }
    | v + 2 => { t with value := v + 1 }
  else t

/-- A reload register of so many bits. -/
def writeReload (bits v : ℕ) (t : Timer) : Timer := { t with reload := v % 2 ^ bits }

/-- Any write clears the counter and the flag. -/
def writeValue (t : Timer) : Timer := { t with value := 0, flag := false }

/-- The control register is read and written back with the enable bit. -/
def enable (t : Timer) : Timer := { t with enabled := true, flag := false }

def disable (t : Timer) : Timer := { t with enabled := false, flag := false }

/-- The enable bit and the flag, which the read clears. -/
def readControl (t : Timer) : Bool × Bool × Timer := (t.enabled, t.flag, { t with flag := false })

/-- The ticks until the counter next reaches zero. -/
def left (t : Timer) : ℕ := if t.value = 0 then t.reload + 1 else t.value

/-- Counting, and not yet at zero since the flag was read. -/
structure Waiting (t : Timer) : Prop where
  enabled : t.enabled = true
  flag_clear : t.flag = false
  reload_pos : 0 < t.reload

end Timer

/-- Read until the flag is set or the counter is off: the ticks waited, and the timer after the last read.
`pace i` and one more tick pass before read `i`. -/
def poll : ℕ → (ℕ → ℕ) → Timer → Option (ℕ × Timer)
  | 0, _, _ => none
  | fuel + 1, pace, t =>
      let (enabled, flag, t) := (Timer.tick^[pace 0 + 1] t).readControl
      if enabled && !flag then (poll fuel (fun i => pace (i + 1)) t).map fun (waited, t) => (pace 0 + 1 + waited, t)
      else some (pace 0 + 1, t)

section Ticks

variable {t : Timer}

open Timer

theorem left_pos (t : Timer) : 0 < t.left := by
  unfold left
  split_ifs <;> omega

/-- A tick brings the counter one nearer to zero at most. -/
theorem left_le_tick (t : Timer) : t.left ≤ t.tick.left + 1 := by
  obtain ⟨reload, value, enabled, flag⟩ := t
  cases enabled with
  | false => exact Nat.le_succ _
  | true =>
      match value with
      | 0 => by_cases hreload : reload = 0 <;> simp [left, tick, hreload]
      | 1 => simp [left, tick]
      | v + 2 => simp [left, tick]

theorem left_le_ticks (n : ℕ) (t : Timer) : t.left ≤ (tick^[n] t).left + n := by
  induction n generalizing t with
  | zero => exact le_rfl
  | succ n ih =>
      have hfirst := left_le_tick t
      have hrest := ih t.tick
      rw [Function.iterate_succ_apply]
      omega

theorem tick_reload (t : Timer) : t.tick.reload = t.reload ∧ t.tick.enabled = t.enabled := by
  obtain ⟨reload, value, enabled, flag⟩ := t
  cases enabled with
  | false => exact ⟨rfl, rfl⟩
  | true => match value with
    | 0 | 1 | v + 2 => exact ⟨rfl, rfl⟩

theorem ticks_reload (n : ℕ) (t : Timer) : (tick^[n] t).reload = t.reload ∧ (tick^[n] t).enabled = t.enabled := by
  induction n with
  | zero => exact ⟨rfl, rfl⟩
  | succ n ih =>
      rw [Function.iterate_succ_apply', (tick_reload _).1, (tick_reload _).2]
      exact ih

theorem tick_value_le (h : t.value ≤ t.reload) : t.tick.value ≤ t.tick.reload := by
  obtain ⟨reload, value, enabled, flag⟩ := t
  cases enabled with
  | false => exact h
  | true => match value with
    | 0 => exact le_rfl
    | 1 => exact Nat.zero_le _
    | v + 2 => exact (Nat.le_succ _).trans h

/-- A counter that starts inside its reload stays there. -/
theorem ticks_value_le (h : t.value ≤ t.reload) (n : ℕ) : (tick^[n] t).value ≤ t.reload := by
  have hkept : (tick^[n] t).value ≤ (tick^[n] t).reload := by
    induction n with
    | zero => exact h
    | succ n ih =>
        rw [Function.iterate_succ_apply']
        exact tick_value_le ih
  rwa [(ticks_reload n t).1] at hkept

/-- **The counter** goes round modulo its reload and one. -/
theorem ticks_value (henabled : t.enabled = true) (h : t.value ≤ t.reload) (n : ℕ) :
    (tick^[n] t).value = (t.value + t.reload * n) % (t.reload + 1) := by
  induction n with
  | zero => exact (Nat.mod_eq_of_lt (Nat.lt_succ_of_le h)).symm
  | succ n ih =>
      obtain ⟨hreload, hon⟩ := ticks_reload n t
      have htick : (tick (tick^[n] t)).value = ((tick^[n] t).value + t.reload) % (t.reload + 1) := by
        have hle := ticks_value_le h n
        rw [tick, hon.trans henabled, if_pos rfl, ← hreload]
        split
        case h_1 heq =>
          rw [heq, Nat.zero_add]
          exact (Nat.mod_eq_of_lt (Nat.lt_succ_self _)).symm
        all_goals
          rename_i heq
          rw [heq] at hle ⊢
          rw [← hreload] at hle
          rw [show ∀ v r : ℕ, v + 1 + r = v + (r + 1) by omega, Nat.add_mod_right, Nat.mod_eq_of_lt (by omega)]
      rw [Function.iterate_succ_apply', htick, ih, Nat.mod_add_mod, Nat.add_assoc, ← Nat.mul_succ]

/-- A counter that is off stands still. -/
theorem ticks_of_disabled (h : t.enabled = false) (n : ℕ) : tick^[n] t = t := by
  apply Function.iterate_fixed
  rw [tick, h]
  rfl

theorem left_le_of_value_le (h : t.value ≤ t.reload) : t.left ≤ t.reload + 1 := by
  unfold left
  split_ifs <;> omega

/-- Before zero is reached a waiting timer waits on. -/
theorem Timer.Waiting.tick (h : Waiting t) (hleft : 1 < t.left) : Waiting t.tick ∧ t.tick.left + 1 = t.left := by
  obtain ⟨reload, value, enabled, flag⟩ := t
  obtain ⟨rfl, rfl, hreload⟩ := h
  have hne : reload ≠ 0 := Nat.pos_iff_ne_zero.mp hreload
  match value with
  | 0 => exact ⟨⟨rfl, rfl, hreload⟩, by simp [left, Timer.tick, hne]⟩
  | 1 => simp [left] at hleft
  | v + 2 => exact ⟨⟨rfl, rfl, hreload⟩, by simp [left, Timer.tick]⟩

theorem Timer.Waiting.ticks (h : Waiting t) {n : ℕ} (hn : n < t.left) :
    Waiting (Timer.tick^[n] t) ∧ (Timer.tick^[n] t).left + n = t.left := by
  induction n with
  | zero => exact ⟨h, rfl⟩
  | succ n ih =>
      obtain ⟨hwaiting, hleft⟩ := ih (by omega)
      obtain ⟨hnext, hnextLeft⟩ := hwaiting.tick (by omega)
      rw [Function.iterate_succ_apply']
      exact ⟨hnext, by omega⟩

/-- Reaching zero sets the flag. -/
theorem Timer.Waiting.flag_of_last (h : Waiting t) (hleft : t.left = 1) : t.tick.flag = true := by
  obtain ⟨reload, value, enabled, flag⟩ := t
  obtain ⟨rfl, rfl, hreload⟩ := h
  have hne : reload ≠ 0 := Nat.pos_iff_ne_zero.mp hreload
  match value with
  | 0 => simp [left, hne] at hleft
  | 1 => rfl
  | v + 2 => simp [left] at hleft

theorem tick_flag (h : t.flag = true) : t.tick.flag = true := by
  obtain ⟨reload, value, enabled, flag⟩ := t
  cases enabled with
  | false => exact h
  | true => match value with
    | 0 | v + 2 => exact h
    | 1 => rfl

/-- **The flag** is set when the counter has reached zero, and stays set until it is read. -/
theorem Timer.Waiting.flag_iff (h : Waiting t) (n : ℕ) : (Timer.tick^[n] t).flag = true ↔ t.left ≤ n := by
  constructor
  · intro hflag
    by_contra hbefore
    rw [(h.ticks (not_le.mp hbefore)).1.flag_clear] at hflag
    cases hflag
  · intro hle
    induction n, hle using Nat.le_induction with
    | base =>
        obtain ⟨n, hn⟩ := Nat.exists_eq_succ_of_ne_zero (left_pos t).ne'
        obtain ⟨hwaiting, hleft⟩ := h.ticks (n := n) (by omega)
        rw [hn, Function.iterate_succ_apply']
        exact hwaiting.flag_of_last (by omega)
    | succ n _ ih =>
        rw [Function.iterate_succ_apply']
        exact tick_flag ih

end Ticks

section Poll

variable {t : Timer} {pace : ℕ → ℕ} {fuel waited : ℕ} {last : Timer}

open Timer

theorem readControl_of_clear (h : t.flag = false) : t.readControl = (t.enabled, false, t) := by
  obtain ⟨reload, value, enabled, flag⟩ := t
  cases h
  rfl

theorem poll_succ (h : Waiting t) : poll (fuel + 1) pace t =
    if t.left ≤ pace 0 + 1 then some (pace 0 + 1, { (tick^[pace 0 + 1] t) with flag := false })
    else (poll fuel (fun i => pace (i + 1)) (tick^[pace 0 + 1] t)).map fun (waited, t) => (pace 0 + 1 + waited, t) := by
  have henabled : (tick^[pace 0 + 1] t).enabled = true := (ticks_reload _ _).2.trans h.enabled
  by_cases hzero : t.left ≤ pace 0 + 1
  · have hflag := (h.flag_iff _).mpr hzero
    simp only [poll, readControl, hflag, Bool.not_true, Bool.and_false, Bool.false_eq_true, if_false, if_pos hzero]
  · have hwaiting := (h.ticks (not_le.mp hzero)).1
    rw [poll, readControl_of_clear hwaiting.flag_clear, henabled, if_neg hzero]
    rfl

/-- A loop that returns has seen the flag at its first read, or has waited up to it and gone on. -/
theorem poll_cases (h : Waiting t) (hpoll : poll (fuel + 1) pace t = some (waited, last)) :
    t.left ≤ pace 0 + 1 ∧ waited = pace 0 + 1 ∨
      ∃ rest, Waiting (tick^[pace 0 + 1] t) ∧ (tick^[pace 0 + 1] t).left + (pace 0 + 1) = t.left ∧
        poll fuel (fun i => pace (i + 1)) (tick^[pace 0 + 1] t) = some (rest, last) ∧ waited = pace 0 + 1 + rest := by
  rw [poll_succ h] at hpoll
  by_cases hzero : t.left ≤ pace 0 + 1
  · rw [if_pos hzero] at hpoll
    cases hpoll
    exact .inl ⟨hzero, rfl⟩
  · rw [if_neg hzero, Option.map_eq_some_iff] at hpoll
    obtain ⟨⟨rest, u⟩, hrest, heq⟩ := hpoll
    cases heq
    obtain ⟨hwaiting, hleft⟩ := h.ticks (not_le.mp hzero)
    exact .inr ⟨rest, hwaiting, hleft, hrest, rfl⟩

/-- **At least to zero.** The loop does not return before the counter has reached zero. -/
theorem left_le_of_poll (h : Waiting t) (hpoll : poll fuel pace t = some (waited, last)) : t.left ≤ waited := by
  induction fuel generalizing t pace waited with
  | zero => cases hpoll
  | succ fuel ih =>
      rcases poll_cases h hpoll with ⟨hzero, rfl⟩ | ⟨rest, hwaiting, hleft, hrest, rfl⟩
      · exact hzero
      · have hle := ih hwaiting hrest
        omega

/-- Every read comes at least one tick after the one before, so enough reads see the flag. -/
theorem poll_isSome (h : Waiting t) (hfuel : t.left ≤ fuel) : (poll fuel pace t).isSome := by
  induction fuel generalizing t pace with
  | zero => exact absurd hfuel (not_le.mpr (left_pos t))
  | succ fuel ih =>
      rw [poll_succ h]
      by_cases hzero : t.left ≤ pace 0 + 1
      · rw [if_pos hzero]
        rfl
      · obtain ⟨hwaiting, hleft⟩ := h.ticks (not_le.mp hzero)
        rw [if_neg hzero, Option.isSome_map]
        exact ih hwaiting (by omega)

/-- Reading at every tick, the loop returns when the counter reaches zero. -/
theorem poll_eager (h : Waiting t) (hpoll : poll fuel (fun _ => 0) t = some (waited, last)) : waited ≤ t.left := by
  induction fuel generalizing t waited with
  | zero => cases hpoll
  | succ fuel ih =>
      rcases poll_cases h hpoll with ⟨-, rfl⟩ | ⟨rest, hwaiting, hleft, hrest, rfl⟩
      · exact left_pos t
      · have hle := ih hwaiting hrest
        omega

/-- **A reload of zero** leaves the loop waiting for ever. -/
theorem poll_stopped (hreload : t.reload = 0) (hvalue : t.value = 0) (henabled : t.enabled = true)
    (hflag : t.flag = false) : poll fuel pace t = none := by
  have hstill : ∀ n, tick^[n] t = t := by
    intro n
    apply Function.iterate_fixed
    obtain ⟨reload, value, enabled, flag⟩ := t
    cases hreload
    cases hvalue
    cases henabled
    rfl
  induction fuel generalizing pace with
  | zero => rfl
  | succ fuel ih =>
      rw [poll, hstill, readControl_of_clear hflag, henabled]
      simp only [Bool.not_false, Bool.and_self, if_true, ih]
      rfl

end Poll

end FocFirmware.Countdown
