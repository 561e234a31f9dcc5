import FocFirmware.BaseFilter
import FocFirmware.LoopController

/-! The speed estimate of `speed_control.c` with its filter of `filter.c`. The two-sided correction of
the angle difference undoes the wrap of both samples, so the filter sees the true motion of every
step. -/

namespace FocFirmware

open Remainder LowPass Finset

structure LpfFilter (K : Type*) where
  alpha : K
  filtered : K

structure LpfSpeed (K : Type*) where
  speed : LpfFilter K

section Model

variable {K : Type*} [Field K]

def sampleFreq : K := 24000.0
def cutoffFreq : K := 500.0
/-- The `PI` of `filter.h`. -/
def filterPi : K := 3.1415

def lpfAlpha : K :=
  let dt := 1.0 / sampleFreq
  1.0 / (1.0 + (1.0 / (2.0 * filterPi * dt * cutoffFreq)))

def lpfSpeedInit (pSpeed : LpfSpeed K) : LpfSpeed K :=
  { pSpeed with speed := { alpha := lpfAlpha, filtered := 0 } }

/-- The new filter state, and the value stored through `speed_out`. -/
def lpfSpeedUpdate (filter : LpfSpeed K) (speedInput : K) : LpfSpeed K × K :=
  let filtered := smooth filter.speed.alpha filter.speed.filtered speedInput
  ({ filter with speed := { filter.speed with filtered := filtered } }, filtered)

variable [LinearOrder K]

/-- The difference of two angle samples with the jump at the wrap taken out. -/
def angleDiff (mechanicalAngle speedLastAngle : K) : K :=
  let diff := mechanicalAngle - speedLastAngle
  if diff > 3.14159 then diff - 6.28318
  else if diff < -3.14159 then diff + 6.28318
  else diff

def calculateSpeed (pFOC : PfocState K) (dt : K) (pSpeedFilter : LpfSpeed K) : PfocState K × LpfSpeed K :=
  let raw := angleDiff pFOC.mechanicalAngle pFOC.speedLastAngle / dt
  let (pSpeedFilter, speed) := lpfSpeedUpdate pSpeedFilter raw
  ({ pFOC with speed := speed, speedLastAngle := pFOC.mechanicalAngle }, pSpeedFilter)

variable [FloorRing K]

/-- `n` calls of `CalculateSpeed`, the sample of call `i` being the wrapped true position `p i`. -/
def speedRun (dt : K) (p : ℕ → K) (start : PfocState K × LpfSpeed K) : ℕ → PfocState K × LpfSpeed K
  | 0 => start
  | n + 1 =>
      let last := speedRun dt p start n
      calculateSpeed { last.1 with mechanicalAngle := normalizeAngle (p (n + 1)) } dt last.2

end Model

section Unwrap

variable {K : Type*} [Field K] [LinearOrder K] [IsStrictOrderedRing K]

theorem lpfAlpha_pos : (0 : K) < lpfAlpha := by norm_num [lpfAlpha, sampleFreq, filterPi, cutoffFreq]

theorem lpfAlpha_lt_one : (lpfAlpha : K) < 1 := by norm_num [lpfAlpha, sampleFreq, filterPi, cutoffFreq]

/-- A difference that is right up to one turn is corrected to the one inside half a turn. -/
theorem angleDiff_of_congruent {a b δ : K} (n : ℤ) (hab : a - b = δ + n * foc2Pi) (hlow : -foc2Pi < a - b)
    (hhigh : a - b < foc2Pi) (hδ : |δ| < focPi) : angleDiff a b = δ := by
  have hn : n = -1 ∨ n = 0 ∨ n = 1 := by
    rw [abs_lt] at hδ
    have hhalf : (foc2Pi : K) = 2 * focPi := by norm_num [foc2Pi, focPi]
    have hpos : (0 : K) < foc2Pi := foc2Pi_pos
    have hbelow : n < 2 := by
      apply lt_of_periods_lt hpos
      push_cast
      linarith
    have habove : -2 < n := by
      apply lt_of_periods_lt hpos
      push_cast
      linarith
    omega
  rw [abs_lt] at hδ
  simp only [focPi, foc2Pi] at hδ hab
  rcases hn with rfl | rfl | rfl
  · have hdiff : a - b < -3.14159 := by
      rw [hab]
      push_cast
      linarith
    rw [angleDiff, if_neg (by linarith), if_pos hdiff, hab]
    push_cast
    ring
  · rw [angleDiff, if_neg (by rw [hab]; push_cast; linarith), if_neg (by rw [hab]; push_cast; linarith), hab]
    push_cast
    ring
  · rw [angleDiff, if_pos (by rw [hab]; push_cast; linarith), hab]
    push_cast
    ring

variable [FloorRing K]

/-- Two wrapped samples less than half a turn apart give back the true motion between them. -/
theorem angleDiff_normalize {x y : K} (h : |y - x| < focPi) :
    angleDiff (normalizeAngle y) (normalizeAngle x) = y - x := by
  obtain ⟨m, hm⟩ := normalizeAngle_eq_sub y
  obtain ⟨n, hn⟩ := normalizeAngle_eq_sub x
  refine angleDiff_of_congruent (n - m) ?_ ?_ ?_ h
  · rw [hm, hn]
    push_cast
    ring
  · linarith [normalizeAngle_nonneg y, normalizeAngle_lt x]
  · linarith [normalizeAngle_nonneg x, normalizeAngle_lt y]

/-- What a run of `CalculateSpeed` keeps: the last sample and the response of the filter. -/
theorem speedRun_state (dt : K) (p : ℕ → K) (pFOC : PfocState K) (filter : LpfSpeed K)
    (hlast : pFOC.speedLastAngle = normalizeAngle (p 0)) (n : ℕ) (hp : ∀ i < n, |p (i + 1) - p i| < focPi) :
    let out := speedRun dt p (pFOC, lpfSpeedInit filter) n
    let filtered := response lpfAlpha (fun i => (p (i + 1) - p i) / dt) n
    out.1.speedLastAngle = normalizeAngle (p n) ∧ out.2 = { speed := { alpha := lpfAlpha, filtered := filtered } } ∧
      (0 < n → out.1.speed = filtered) := by
  induction n with
  | zero => exact ⟨hlast, rfl, fun h => absurd h (lt_irrefl 0)⟩
  | succ n ih =>
      obtain ⟨hangle, hfilter, -⟩ := ih fun i hi => hp i (by omega)
      have hdiff := angleDiff_normalize (hp n (by omega))
      simp only [speedRun, calculateSpeed, lpfSpeedUpdate, hangle, hfilter, hdiff, response]
      simp

end Unwrap

/-- **The speed estimate follows the true motion.** Over any run of steps shorter than half a turn
the angle differences add up to the true motion, and the estimate is the filtered true speed. -/
theorem speed_tracks_motion (dt : ℝ) (hdt : 0 < dt) (n : ℕ) (p : ℕ → ℝ)
    (hp : ∀ i < n, |p (i + 1) - p i| < 3.14159) (pFOC : PfocState ℝ) (filter : LpfSpeed ℝ)
    (hlast : pFOC.speedLastAngle = normalizeAngle (p 0)) :
    let alpha := (lpfSpeedInit filter).speed.alpha
    let out := speedRun dt p (pFOC, lpfSpeedInit filter) n
    (0 < alpha ∧ alpha < 1) ∧
      (∑ i ∈ range n, angleDiff (normalizeAngle (p (i + 1))) (normalizeAngle (p i)) = p n - p 0) ∧
      out.2.speed.filtered = ∑ i ∈ Icc 1 n, alpha * (1 - alpha) ^ (n - i) * ((p i - p (i - 1)) / dt) ∧
      (0 < n → out.1.speed = out.2.speed.filtered ∧ |out.1.speed| < 3.14159 / dt) := by
  intro alpha out
  have hp' : ∀ i < n, |p (i + 1) - p i| < (focPi : ℝ) := hp
  obtain ⟨-, hfilter, hspeed⟩ := speedRun_state dt p pFOC filter hlast n hp'
  have hbound : ∀ i < n, |(p (i + 1) - p i) / dt| < 3.14159 / dt := fun i hi => by
    rw [abs_div, abs_of_pos hdt]
    exact div_lt_div_of_pos_right (hp i hi) hdt
  have hfiltered : out.2.speed.filtered = response lpfAlpha (fun i => (p (i + 1) - p i) / dt) n := by
    rw [show out.2 = _ from hfilter]
  refine ⟨⟨lpfAlpha_pos, lpfAlpha_lt_one⟩, ?_, ?_, ?_⟩
  · rw [sum_congr rfl fun i hi => angleDiff_normalize (hp' i (mem_range.mp hi)), sum_range_sub]
  · exact hfiltered.trans (response_eq_sum_Icc lpfAlpha (fun i => (p i - p (i - 1)) / dt) n)
  · intro hn
    have hout : out.1.speed = response lpfAlpha (fun i => (p (i + 1) - p i) / dt) n := hspeed hn
    refine ⟨hout.trans hfiltered.symm, ?_⟩
    rw [hout]
    exact response_abs_lt lpfAlpha_pos lpfAlpha_lt_one (by positivity) _ n hbound

theorem speed_tracks_motion_unit :
    let p : ℕ → ℝ := fun i => i
    let pFOC : PfocState ℝ := ⟨0, 0, 0, 0, 0, ⟨0, 0, 0, 0, 0, 0, 0, 0, 0⟩, ⟨0, 0, 0, 0, 0, 0, 0, 0, 0⟩,
      ⟨0, 0, 0, 0, 0, 0, 0, 0, 0⟩, 0, 0, 0⟩
    |(speedRun 1 p (pFOC, lpfSpeedInit ⟨⟨0, 0⟩⟩) 7).1.speed| < 3.14159 / 1 := by
  intro p pFOC
  have hp : ∀ i < 7, |p (i + 1) - p i| < 3.14159 := fun i _ => by
    have hone : p (i + 1) - p i = 1 := by simp [p]
    rw [hone]
    norm_num
  have hlast : pFOC.speedLastAngle = normalizeAngle (p 0) := by
    rw [normalizeAngle_of_mem] <;> norm_num [p, pFOC, foc2Pi]
  exact ((speed_tracks_motion 1 one_pos 7 p hp pFOC ⟨⟨0, 0⟩⟩ hlast).2.2.2 (by decide)).2

end FocFirmware
