import FocFirmware.ClockUsart
import FocFirmware.DelayWorkbench

/-! The start of the clocks in `wk_config.c`. Every wait is for a status bit that only the hardware writes,
so whether the function returns is a matter of the hardware alone; what it leaves is not. -/

namespace FocFirmware

open BitField Runs

/-- `HEXT_STARTUP_TIMEOUT`. -/
def hextStartupTimeout : ℕ := 0x3000

/-- The loop of `crm_hext_stable_wait`, with `left` passes still to come. -/
def hextStableLoop (polls : ℕ → ClockPoll) : ℕ → ClockBoard → ClockBoard
  | 0, s => s.sense polls
  | left + 1, s =>
      let s := s.sense polls
      if hextStableFlag s.crm then s else hextStableLoop polls left s

/-- `true` for SUCCESS. -/
def crmHextStableWait (polls : ℕ → ClockPoll) (s : ClockBoard) : Bool × ClockBoard :=
  let s := (hextStableLoop polls hextStartupTimeout s).sense polls
  (hextStableFlag s.crm, s)

/-- The loop around `crm_hext_stable_wait`. -/
def waitHext (polls : ℕ → ClockPoll) : ℕ → ClockBoard → Option ClockBoard
  | 0, _ => none
  | fuel + 1, s =>
      match crmHextStableWait polls s with
      | (true, s) => some s
      | (false, s) => waitHext polls fuel s

/-- `wk_system_clock_config`: the new `system_core_clock`, and the registers. -/
def wkSystemClockConfig (polls : ℕ → ClockPoll) (fuel : ℕ) (s : ClockBoard) : Option (UInt32 × ClockBoard) := do
  let s ← crmReset polls fuel s
  let s := s.write fun r => crmClockSourceEnable r .lick true
  let s ← s.waitFor polls lickStableFlag fuel
  let s := s.write fun r => crmClockSourceEnable r .hext true
  let s ← waitHext polls fuel s
  let s := s.write fun r => crmClockSourceEnable r .hick true
  let s ← s.waitFor polls hickStableFlag fuel
  let s := s.write fun r => crmPllConfig r .hext ⟨30, by decide, by decide⟩ .gt72Mhz
  let s := s.write fun r => crmClockSourceEnable r .pll true
  let s ← s.waitFor polls pllStableFlag fuel
  let s := s.write fun r => crmAhbDivSet r .div1
  let s := s.write fun r => crmApb2DivSet r .div2
  let s := s.write fun r => crmApb1DivSet r .div2
  let s := s.write fun r => crmAutoStepModeEnable r true
  let s := s.write fun r => crmSysclkSwitch r .pll
  let s ← s.waitFor polls (fun r => crmSysclkSwitchStatusGet r = CrmSclk.pll.value) fuel
  let s := s.write fun r => crmAutoStepModeEnable r false
  let s := s.sense polls
  return (systemCoreClockUpdate s.crm, s)

section Waits

variable {polls : ℕ → ClockPoll} {s s' : ClockBoard}

theorem hextStableLoop_keeps {inv : Crm → Prop} (hkeep : ∀ r n, inv r → inv (r.sense (polls n))) (left : ℕ)
    (h : inv s.crm) : inv (hextStableLoop polls left s).crm := by
  induction left generalizing s with
  | zero => exact hkeep _ _ h
  | succ left ih =>
      simp only [hextStableLoop]
      split_ifs
      · exact hkeep _ _ h
      · exact ih (hkeep _ _ h)

theorem waitHext_keeps {fuel : ℕ} {inv : Crm → Prop} (hkeep : ∀ r n, inv r → inv (r.sense (polls n)))
    (hwait : waitHext polls fuel s = some s') (h : inv s.crm) : inv s'.crm := by
  induction fuel generalizing s with
  | zero => cases hwait
  | succ fuel ih =>
      have hread : inv (crmHextStableWait polls s).2.crm := hkeep _ _ (hextStableLoop_keeps hkeep _ h)
      unfold waitHext at hwait
      rcases hstable : crmHextStableWait polls s with ⟨_ | _, u⟩ <;> rw [hstable] at hwait hread
      · exact ih hwait hread
      · cases hwait
        exact hread

end Waits

section Registers

variable {polls : ℕ → ClockPoll} {s s' : ClockBoard} {t : ClockTree}

/-- The registers say what the tree is, but for the source it runs from. -/
def Configures (t : ClockTree) (r : Crm) : Prop := ∃ running, Represents r { t with running := running }

theorem Configures.exec {r : Crm} (h : Configures t r) (e : ClockEvent) : Configures (t.exec e) (r.exec e) := by
  obtain ⟨running, hr⟩ := h
  have hstep := exec_represents hr e
  cases e with
  | poll poll =>
      simp only [ClockTree.exec] at hstep ⊢
      split_ifs at hstep ⊢
      · exact ⟨t.selected, hstep⟩
      · exact ⟨running, hstep⟩
  | usbClockSource hick => cases hick <;> exact ⟨running, hstep⟩
  | pllConfig source mult range => cases source <;> exact ⟨running, hstep⟩
  | _ => exact ⟨running, hstep⟩

/-- Reads of status bits can only make the switch visible. -/
theorem Configures.sense {r : Crm} (h : Configures t r) (poll : ClockPoll) : Configures t (r.sense poll) := by
  obtain ⟨running, hstep⟩ := h.exec (.poll poll)
  refine ⟨running, ?_⟩
  simp only [ClockTree.exec] at hstep
  split_ifs at hstep <;> exact hstep

/-- Once the switch is visible, further reads change nothing. -/
theorem represents_settled {r : Crm} (h : Represents r t) (hrunning : t.running = t.selected) (seen : List ClockPoll) :
    Represents (run Crm.sense r seen) t := by
  refine @run_invariant _ _ Crm.sense (fun r => Represents r t) (fun r poll hr => ?_) r h seen
  have hstep := exec_represents hr (.poll poll)
  have hsame : { t with running := t.selected } = t := by
    cases t
    simp only at hrunning
    subst hrunning
    rfl
  simp only [ClockTree.exec, hsame, ite_self] at hstep
  exact hstep

theorem CrmSclk.value_injective {a b : CrmSclk} (h : a.value = b.value) : a = b := by
  cases a <;> cases b <;> first | rfl | cases h

/-- The tree that `wk_system_clock_config` asks for, still running from the HICK. -/
def ClockTree.asked (before : Crm) : ClockTree :=
  { ClockTree.atReset before with
    selected := .pll
    pllSource := .hext
    mult := ⟨30, by decide, by decide⟩
    apb1 := .div2
    apb2 := .div2 }

/-- The calls and waits in their order, for whatever both keep. -/
theorem wkSystemClockConfig_keeps {Q : ClockTree → Crm → Prop} (hexec : ∀ t r e, Q t r → Q (ClockTree.exec t e) (Crm.exec r e))
    (hsense : ∀ t r n, Q t r → Q t (r.sense (polls n))) {fuel : ℕ} {start : ClockBoard} {clock : UInt32}
    (hstart : ∀ r, Represents r (ClockTree.atReset start.crm) → Q (ClockTree.atReset start.crm) r)
    (h : wkSystemClockConfig polls fuel start = some (clock, s)) :
    ∃ (r : Crm) (poll : ClockPoll), Q (ClockTree.asked start.crm) r ∧ crmSysclkSwitchStatusGet r = CrmSclk.pll.value ∧
      s.crm = (crmAutoStepModeEnable r false).sense poll ∧ clock = systemCoreClockUpdate s.crm := by
  obtain ⟨s1, hreset, h⟩ := Option.bind_eq_some_iff.mp h
  obtain ⟨s2, hlick, h⟩ := Option.bind_eq_some_iff.mp h
  obtain ⟨s3, hhext, h⟩ := Option.bind_eq_some_iff.mp h
  obtain ⟨s4, hhick, h⟩ := Option.bind_eq_some_iff.mp h
  obtain ⟨s5, hpll, h⟩ := Option.bind_eq_some_iff.mp h
  obtain ⟨s6, hswitch, h⟩ := Option.bind_eq_some_iff.mp h
  cases h
  have h1 := hstart _ (crmReset_represents hreset)
  have h2 := waitFor_keeps (hsense _) hlick (hexec _ _ (.sourceEnable .lick true) h1)
  have h3 := waitHext_keeps (hsense _) hhext (hexec _ _ (.sourceEnable .hext true) h2)
  have h4 := waitFor_keeps (hsense _) hhick (hexec _ _ (.sourceEnable .hick true) h3)
  have hconfig := hexec _ _ (.pllConfig .hext ⟨30, by decide, by decide⟩ .gt72Mhz) h4
  have h5 := waitFor_keeps (hsense _) hpll (hexec _ _ (.sourceEnable .pll true) hconfig)
  have hdividers := hexec _ _ (.apb1Div .div2) (hexec _ _ (.apb2Div .div2) (hexec _ _ (.ahbDiv .div1) h5))
  have hselect := hexec _ _ (.sysclkSwitch .pll) (hexec _ _ (.autoStepMode true) hdividers)
  have h6 := waitFor_keeps (hsense _) hswitch hselect
  exact ⟨s6.crm, _, h6, of_decide_eq_true (waitFor_ready hswitch).1, rfl, rfl⟩

def ClockTree.configured (before : Crm) : ClockTree := { ClockTree.asked before with running := .pll }

/-- What the function leaves, however long it waited for what. -/
theorem wkSystemClockConfig_represents {fuel : ℕ} {start : ClockBoard} {clock : UInt32}
    (h : wkSystemClockConfig polls fuel start = some (clock, s)) :
    Represents s.crm (ClockTree.configured start.crm) ∧ clock = systemCoreClockUpdate s.crm := by
  obtain ⟨r, poll, ⟨running, hr⟩, hstatus, hs, hclock⟩ := @wkSystemClockConfig_keeps polls s Configures
    (fun _ _ e h => h.exec e) (fun _ _ _ h => h.sense _) fuel start clock (fun _ h => ⟨.hick, h⟩) h
  have hpll : running = .pll := CrmSclk.value_injective (hr.sclksts.symm.trans hstatus)
  subst hpll
  have hdone : Represents (crmAutoStepModeEnable r false) (ClockTree.configured start.crm) :=
    exec_represents hr (.autoStepMode false)
  exact ⟨hs ▸ represents_settled hdone rfl [poll], hclock⟩

/-- It does not return before the switch has been seen. -/
theorem switched_of_wkSystemClockConfig {fuel : ℕ} {start : ClockBoard} {clock : UInt32}
    (h : wkSystemClockConfig polls fuel start = some (clock, s)) : ∃ n, (polls n).switched = true := by
  by_contra hnever
  have hunswitched : ∀ n, (polls n).switched = false := fun n => Bool.eq_false_iff.mpr fun hn => hnever ⟨n, hn⟩
  obtain ⟨r, -, hr, hstatus, -, -⟩ := @wkSystemClockConfig_keeps polls s (fun t r => Represents r t)
    (fun _ _ e h => exec_represents h e) (fun t r n h => by
      have hstep := exec_represents h (.poll (polls n))
      simp only [ClockTree.exec, hunswitched, Bool.false_eq_true, if_false] at hstep
      exact hstep) fuel start clock (fun _ h => h) h
  cases CrmSclk.value_injective (hr.sclksts.symm.trans hstatus)

end Registers

/-- The status bits that the waits are for. -/
inductive ClockStatus where
  | hick
  | hext
  | pll
  | lick
  | switched

def ClockPoll.shows (poll : ClockPoll) : ClockStatus → Bool
  | .hick => poll.hick
  | .hext => poll.hext
  | .pll => poll.pll
  | .lick => poll.lick
  | .switched => poll.switched

section Flags

variable (r : Crm) (poll : ClockPoll)

theorem bitOf_eq_one (on : Bool) : decide (bitOf on = 1) = on := by
  cases on <;> rfl

@[simp] theorem hickStableFlag_sense : hickStableFlag (r.sense poll) = poll.hick := by
  simp (disch := decide) only [hickStableFlag, Crm.sense, Field.get_set_apart, Field.get_set_same, bitOf_mod, bitOf_eq_one]

@[simp] theorem hextStableFlag_sense : hextStableFlag (r.sense poll) = poll.hext := by
  simp (disch := decide) only [hextStableFlag, Crm.sense, Field.get_set_apart, Field.get_set_same, bitOf_mod, bitOf_eq_one]

@[simp] theorem pllStableFlag_sense : pllStableFlag (r.sense poll) = poll.pll := by
  simp (disch := decide) only [pllStableFlag, Crm.sense, Field.get_set_same, bitOf_mod, bitOf_eq_one]

@[simp] theorem lickStableFlag_sense : lickStableFlag (r.sense poll) = poll.lick := by
  simp (disch := decide) only [lickStableFlag, Crm.sense, Field.get_set_same, bitOf_mod, bitOf_eq_one]

end Flags

section Returns

variable {polls : ℕ → ClockPoll} {s s' : ClockBoard}

/-- A wait ends where the status it is for is shown from some read on. -/
theorem waitFor_settled {N : ℕ} (hsettled : ∀ n, N ≤ n → polls n = .settled) {ready : Crm → Bool} {inv : Crm → Prop}
    (hkeep : ∀ r n, inv r → inv (r.sense (polls n))) (hready : ∀ r, inv r → ready (r.sense .settled) = true)
    (h : inv s.crm) {fuel : ℕ} (hfuel : N ≤ s.polled + fuel) : ∃ s', s.waitFor polls ready (fuel + 1) = some s' := by
  induction fuel generalizing s with
  | zero =>
      refine ⟨s.sense polls, ?_⟩
      rw [ClockBoard.waitFor]
      apply if_pos
      rw [ClockBoard.sense, hsettled s.polled hfuel]
      exact hready _ h
  | succ fuel ih =>
      rw [ClockBoard.waitFor]
      split_ifs
      · exact ⟨_, rfl⟩
      · apply ih (hkeep _ _ h)
        simp only [ClockBoard.sense]
        omega

theorem hextStableLoop_polled (polls : ℕ → ClockPoll) (left : ℕ) (s : ClockBoard) :
    s.polled < (hextStableLoop polls left s).polled := by
  induction left generalizing s with
  | zero => exact Nat.lt_succ_self _
  | succ left ih =>
      simp only [hextStableLoop]
      split_ifs
      · exact Nat.lt_succ_self _
      · exact (Nat.lt_succ_self _).trans (ih (s.sense polls))

theorem waitHext_settled {N : ℕ} (hsettled : ∀ n, N ≤ n → polls n = .settled) {fuel : ℕ} (hfuel : N ≤ s.polled + fuel) :
    ∃ s', waitHext polls (fuel + 1) s = some s' := by
  induction fuel generalizing s with
  | zero =>
      have hlater := hextStableLoop_polled polls hextStartupTimeout s
      refine ⟨(crmHextStableWait polls s).2, ?_⟩
      have hstable : (crmHextStableWait polls s).1 = true := by
        simp only [crmHextStableWait, ClockBoard.sense, hextStableFlag_sense, hsettled _ (hfuel.trans hlater.le)]
        rfl
      rw [waitHext, ← Prod.mk.eta (p := crmHextStableWait polls s), hstable]
  | succ fuel ih =>
      have hlater := hextStableLoop_polled polls hextStartupTimeout s
      rw [waitHext]
      rcases hwait : crmHextStableWait polls s with ⟨_ | _, u⟩
      · apply ih
        have hu : u.polled = (hextStableLoop polls hextStartupTimeout s).polled + 1 := congrArg (·.2.polled) hwait.symm
        omega
      · exact ⟨u, rfl⟩

theorem hext_of_waitHext {fuel : ℕ} (h : waitHext polls fuel s = some s') : ∃ n, (polls n).hext = true := by
  induction fuel generalizing s with
  | zero => cases h
  | succ fuel ih =>
      rw [waitHext] at h
      rcases hwait : crmHextStableWait polls s with ⟨_ | _, u⟩ <;> rw [hwait] at h
      · exact ih h
      · have hstable : (crmHextStableWait polls s).1 = true := congrArg Prod.fst hwait
        simp only [crmHextStableWait, ClockBoard.sense, hextStableFlag_sense] at hstable
        exact ⟨_, hstable⟩

/-- Every wait saw its status. -/
theorem shown_of_wkSystemClockConfig {fuel : ℕ} {start : ClockBoard} {clock : UInt32}
    (h : wkSystemClockConfig polls fuel start = some (clock, s)) (status : ClockStatus) :
    ∃ n, (polls n).shows status = true := by
  have hswitched := switched_of_wkSystemClockConfig h
  obtain ⟨s1, hreset, h⟩ := Option.bind_eq_some_iff.mp h
  obtain ⟨s2, hlick, h⟩ := Option.bind_eq_some_iff.mp h
  obtain ⟨s3, hhext, h⟩ := Option.bind_eq_some_iff.mp h
  obtain ⟨s4, hhick, h⟩ := Option.bind_eq_some_iff.mp h
  obtain ⟨s5, hpll, h⟩ := Option.bind_eq_some_iff.mp h
  cases status with
  | hick =>
      obtain ⟨hready, r, n, hs⟩ := waitFor_ready hhick
      exact ⟨n, by rwa [hs, hickStableFlag_sense] at hready⟩
  | hext => exact hext_of_waitHext hhext
  | pll =>
      obtain ⟨hready, r, n, hs⟩ := waitFor_ready hpll
      exact ⟨n, by rwa [hs, pllStableFlag_sense] at hready⟩
  | lick =>
      obtain ⟨hready, r, n, hs⟩ := waitFor_ready hlick
      exact ⟨n, by rwa [hs, lickStableFlag_sense] at hready⟩
  | switched => exact hswitched

/-- The wait for the switch to a source that has been selected. -/
theorem waitSwitch_settled {N fuel : ℕ} (hsettled : ∀ n, N ≤ n → polls n = .settled) (hfuel : N ≤ fuel) (sclk : CrmSclk)
    (s : ClockBoard) : ∃ s', (s.write fun r => crmSysclkSwitch r sclk).waitFor polls
      (fun r => crmSysclkSwitchStatusGet r = sclk.value) (fuel + 1) = some s' := by
  apply @waitFor_settled polls _ N hsettled _ (fun r => CfgBit.sclksel.get r.cfg = sclk.value)
  · intro r n hr
    unfold Crm.sense
    simp only
    split_ifs
    · rw [Field.get_set_apart (by decide), hr]
    · exact hr
  · intro r hr
    apply decide_eq_true
    simp (disch := decide) only [crmSysclkSwitchStatusGet, Crm.sense, ClockPoll.settled, if_true, Field.get_set_same, hr,
      CrmSclk.value_sclksts]
  · simp (disch := decide) only [ClockBoard.write, crmSysclkSwitch, Field.get_set_same, CrmSclk.value_sclksel]
  · omega

/-- With all statuses shown from some read on, it returns. -/
theorem wkSystemClockConfig_settled {N : ℕ} (hsettled : ∀ n, N ≤ n → polls n = .settled) (start : ClockBoard) :
    (wkSystemClockConfig polls (N + 1) start).isSome := by
  have hflag : ∀ {ready : Crm → Bool}, (∀ r, ready (Crm.sense r .settled) = true) → ∀ s : ClockBoard,
      ∃ s', s.waitFor polls ready (N + 1) = some s' := fun hready s =>
    @waitFor_settled polls s N hsettled _ (fun _ => True) (fun _ _ _ => trivial) (fun r _ => hready r) trivial N (by omega)
  have hhick := hflag fun r => hickStableFlag_sense r .settled
  obtain ⟨a, ha⟩ := hhick (start.write fun r => { r with ctrl := CtrlBit.hicken.set 1 r.ctrl })
  obtain ⟨b, hb⟩ := waitSwitch_settled hsettled le_rfl .hick a
  obtain ⟨s1, hreset⟩ : ∃ s1, crmReset polls (N + 1) start = some s1 :=
    ⟨_, Option.bind_eq_some_iff.mpr ⟨a, ha, Option.bind_eq_some_iff.mpr ⟨b, hb, rfl⟩⟩⟩
  obtain ⟨s2, hlick⟩ := hflag (fun r => lickStableFlag_sense r .settled) (s1.write fun r => crmClockSourceEnable r .lick true)
  obtain ⟨s3, hhext⟩ := @waitHext_settled polls (s2.write fun r => crmClockSourceEnable r .hext true) N hsettled N (by omega)
  obtain ⟨s4, hhick⟩ := hhick (s3.write fun r => crmClockSourceEnable r .hick true)
  obtain ⟨s5, hpll⟩ := hflag (fun r => pllStableFlag_sense r .settled)
    ((s4.write fun r => crmPllConfig r .hext ⟨30, by decide, by decide⟩ .gt72Mhz).write fun r => crmClockSourceEnable r .pll true)
  obtain ⟨s6, hswitch⟩ := waitSwitch_settled hsettled le_rfl .pll ((((s5.write fun r => crmAhbDivSet r .div1).write
    fun r => crmApb2DivSet r .div2).write fun r => crmApb1DivSet r .div2).write fun r => crmAutoStepModeEnable r true)
  exact Option.isSome_iff_exists.mpr ⟨_, Option.bind_eq_some_iff.mpr ⟨s1, hreset, Option.bind_eq_some_iff.mpr ⟨s2, hlick,
    Option.bind_eq_some_iff.mpr ⟨s3, hhext, Option.bind_eq_some_iff.mpr ⟨s4, hhick,
      Option.bind_eq_some_iff.mpr ⟨s5, hpll, Option.bind_eq_some_iff.mpr ⟨s6, hswitch, rfl⟩⟩⟩⟩⟩⟩⟩

/-- Statuses that stay once shown are in the end all shown. -/
theorem settled_of_kept (hkept : ∀ status n, (polls n).shows status = true → (polls (n + 1)).shows status = true)
    (hshown : ∀ status, ∃ n, (polls n).shows status = true) : ∃ N, ∀ n, N ≤ n → polls n = .settled := by
  choose first hfirst using hshown
  have hlater : ∀ status n, first status ≤ n → (polls n).shows status = true := by
    intro status n hn
    induction n, hn using Nat.le_induction with
    | base => exact hfirst status
    | succ n _ ih => exact hkept status n ih
  refine ⟨max (max (first .hick) (first .hext)) (max (first .pll) (max (first .lick) (first .switched))), fun n hn => ?_⟩
  simp only [max_le_iff] at hn
  obtain ⟨⟨hhick, hhext⟩, hpll, hlick, hswitched⟩ := hn
  ext
  · exact hlater .hick n hhick
  · exact hlater .hext n hhext
  · exact hlater .pll n hpll
  · exact hlater .lick n hlick
  · exact hlater .switched n hswitched

end Returns

/-- What the rest of the initialisation computes from the clocks, whatever the status bits do meanwhile. -/
structure ClocksConfigured (clock : UInt32) (r : Crm) : Prop where
  clock_eq : clock = 240000000
  freqs : ∀ seen, (crmClocksFreqGet (run Crm.sense r seen)).toTree = (240000000, 240000000, 120000000, 120000000, 60000000)
  ticks : ∀ seen pace t, (wkTimebaseInit (crmClocksFreqGet (run Crm.sense r seen)).ahbFreq pace t).1 = 240
  factors : delayInit clock = ⟨240, 240000⟩
  divisor : ∀ seen dataBit stopBit u,
    UsartBit.div.get (usartInit (run Crm.sense r seen) .usart3 921600 dataBit stopBit u).baudr = 130

theorem configured_freqs (before : Crm) :
    (ClockTree.configured before).freqs = (240000000, 240000000, 120000000, 120000000, 60000000) := by
  have hpll : (ClockTree.configured before).pllInput = 8000000 := rfl
  have hsclk : (ClockTree.configured before).sclkFreq = 240000000 := by
    change (ClockTree.configured before).pllInput * 30 = 240000000
    rw [hpll]
  have hahb : (ClockTree.configured before).ahbFreq = 240000000 := (Nat.div_one _).trans hsclk
  have hapb1 : (ClockTree.configured before).apb1Freq = 120000000 := congrArg (· / 2) hahb
  have hapb2 : (ClockTree.configured before).apb2Freq = 120000000 := congrArg (· / 2) hahb
  have hadc : (ClockTree.configured before).adcFreq = 60000000 := congrArg (· / 2) hapb2
  rw [ClockTree.freqs, hsclk, hahb, hapb1, hapb2, hadc]

theorem clocksConfigured {before r : Crm} (h : Represents r (ClockTree.configured before)) :
    ClocksConfigured (systemCoreClockUpdate r) r := by
  have hseen : ∀ seen, Represents (run Crm.sense r seen) (ClockTree.configured before) := represents_settled h rfl
  have hfreqs := configured_freqs before
  simp only [ClockTree.freqs, Prod.mk.injEq] at hfreqs
  obtain ⟨-, hahb, -, hapb1, -⟩ := hfreqs
  have hclock : systemCoreClockUpdate r = 240000000 := UInt32.toNat_inj.mp ((systemCoreClockUpdate_toNat h).trans hahb)
  refine ⟨hclock, fun seen => ?_, fun seen pace t => ?_, ?_, fun seen dataBit stopBit u => ?_⟩
  · rw [crmClocksFreqGet_eq (hseen seen), configured_freqs]
  · have hfreq : (crmClocksFreqGet (run Crm.sense r seen)).ahbFreq = 240000000 :=
      UInt32.toNat_inj.mp ((congrArg (·.2.1) (crmClocksFreqGet_eq (hseen seen))).trans hahb)
    rw [hfreq]
    rfl
  · rw [hclock]
    rfl
  · have hfreq : (ClockTree.configured before).usartFreq .usart3 = 120000000 := hapb1
    rw [usartInit_div (hseen seen) (by rw [hfreq]; decide) (by decide), hfreq]
    rfl

/-- **The start of the clocks.** The function returns only where the hardware shows all five status bits, and on
hardware whose status bits stay once they are shown that is enough; whatever the registers held and however the
hardware behaves, what it leaves when it returns is the configured tree. -/
theorem system_clock_config_returns_iff (polls : ℕ → ClockPoll) (start : ClockBoard) :
    ((∃ fuel, (wkSystemClockConfig polls fuel start).isSome) → ∀ status, ∃ n, (polls n).shows status = true) ∧
      ((∀ status n, (polls n).shows status = true → (polls (n + 1)).shows status = true) →
        (∀ status, ∃ n, (polls n).shows status = true) → ∃ fuel, (wkSystemClockConfig polls fuel start).isSome) ∧
      ∀ fuel clock s, wkSystemClockConfig polls fuel start = some (clock, s) → ClocksConfigured clock s.crm := by
  refine ⟨?_, ?_, ?_⟩
  · rintro ⟨fuel, hsome⟩
    obtain ⟨⟨clock, s⟩, hconfig⟩ := Option.isSome_iff_exists.mp hsome
    exact shown_of_wkSystemClockConfig hconfig
  · intro hkept hshown
    obtain ⟨N, hsettled⟩ := settled_of_kept hkept hshown
    exact ⟨N + 1, wkSystemClockConfig_settled hsettled start⟩
  · intro fuel clock s hconfig
    obtain ⟨hr, rfl⟩ := wkSystemClockConfig_represents hconfig
    exact clocksConfigured hr

/-- A crystal that is stable from read 20000 on, after the first time-out of `crm_hext_stable_wait`. -/
theorem system_clock_config_returns_iff_slow_crystal :
    let polls : ℕ → ClockPoll := fun n => { ClockPoll.settled with hext := 20000 ≤ n }
    let start : ClockBoard := ⟨⟨0, 0, 0, 0, 0, 0, 0⟩, 0⟩
    ∃ fuel clock s, wkSystemClockConfig polls fuel start = some (clock, s) ∧ ClocksConfigured clock s.crm := by
  intro polls start
  obtain ⟨-, hreturns, hconfigured⟩ := system_clock_config_returns_iff polls start
  have hkept : ∀ status n, (polls n).shows status = true → (polls (n + 1)).shows status = true := by
    intro status n hshows
    cases status with
    | hext => exact decide_eq_true ((of_decide_eq_true hshows).trans (Nat.le_succ n))
    | hick | pll | lick | switched => rfl
  have hshown : ∀ status, ∃ n, (polls n).shows status = true := by
    intro status
    refine ⟨20000, ?_⟩
    cases status <;> rfl
  obtain ⟨fuel, hsome⟩ := hreturns hkept hshown
  obtain ⟨⟨clock, s⟩, hconfig⟩ := Option.isSome_iff_exists.mp hsome
  exact ⟨fuel, clock, s, hconfig, hconfigured fuel clock s hconfig⟩

end FocFirmware
