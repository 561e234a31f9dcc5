import FocFirmware.BaseRuns
import Mathlib.Algebra.BigOperators.Group.List.Basic
import Mathlib.Algebra.Order.Group.MinMax
import Mathlib.Tactic.Linarith
import Mathlib.Tactic.Ring

/-! Two forms of a PI controller with a limited output. The positional form has an integrator, calculated
back from the clamped output after each step so that it does not wind up. The incremental form has the last
output and the last error instead. They are one controller: the integrator is the output less the
proportional part of the last error. -/

namespace FocFirmware.AntiWindup

open Runs

structure Gains (K : Type*) where
  kp : K
  ki : K
  limit : K

/-- The output of the last step and the integrator. -/
structure Positional (K : Type*) where
  out : K
  integrator : K

/-- The output and the error of the last step. -/
structure Incremental (K : Type*) where
  out : K
  lastError : K

section Steps

variable {K : Type*} [Field K] [LinearOrder K]

/-- Between the two limits. -/
def clamp (limit x : K) : K := max (-limit) (min limit x)

def Positional.step (g : Gains K) (c : Positional K) (error : K) : Positional K :=
  let out := clamp g.limit (g.kp * error + c.integrator + g.ki * error)
  ⟨out, out - g.kp * error⟩

/-- The output that an incremental step would have without limits. -/
def Incremental.demand (g : Gains K) (c : Incremental K) (error : K) : K :=
  c.out + (g.kp * (error - c.lastError) + g.ki * error)

def Incremental.step (g : Gains K) (c : Incremental K) (error : K) : Incremental K :=
  ⟨clamp g.limit (c.demand g error), error⟩

/-- The integrator that an incremental controller stands for. -/
def Incremental.positional (g : Gains K) (c : Incremental K) : Positional K := ⟨c.out, c.out - g.kp * c.lastError⟩

/-- The limits leave the step alone. -/
def Incremental.Inside (g : Gains K) (c : Incremental K) (error : K) : Prop := |c.demand g error| ≤ g.limit

theorem step_positional (g : Gains K) (c : Incremental K) (error : K) :
    (c.step g error).positional g = (c.positional g).step g error := by
  have hdemand : c.demand g error = g.kp * error + (c.out - g.kp * c.lastError) + g.ki * error := by
    rw [Incremental.demand]
    ring
  simp only [Incremental.positional, Incremental.step, Positional.step, hdemand]

/-- **Both forms do the same.** After every sequence of errors they have the same output. -/
theorem run_positional (g : Gains K) (c : Incremental K) (errors : List K) :
    (run (Incremental.step g) c errors).positional g = run (Positional.step g) (c.positional g) errors := by
  have hrun := run_map (Incremental.positional g) id (step_positional g) c errors
  rwa [List.map_id] at hrun

theorem run_lastError (g : Gains K) (c : Incremental K) (errors : List K) :
    (run (Incremental.step g) c errors).lastError = errors.getLastD c.lastError := by
  induction errors generalizing c with
  | nil => rfl
  | cons error errors ih =>
      rw [run_cons, ih, List.getLastD_cons]
      rfl

variable [IsStrictOrderedRing K]

theorem clamp_of_abs_le {limit x : K} (h : |x| ≤ limit) : clamp limit x = x := by
  obtain ⟨hlow, hhigh⟩ := abs_le.mp h
  rw [clamp, min_eq_right hhigh, max_eq_right hlow]

/-- The limits applied one after the other, the upper one first. -/
theorem clamp_eq_ite {limit : K} (h : 0 ≤ limit) (x : K) :
    clamp limit x = if (if x > limit then limit else x) < -limit then -limit else if x > limit then limit else x := by
  by_cases hhigh : x > limit
  · have hlow : ¬limit < -limit := by linarith
    rw [clamp, min_eq_left hhigh.le, if_pos hhigh, if_neg hlow, max_eq_right (by linarith)]
  · rw [clamp, min_eq_right (not_lt.mp hhigh), if_neg hhigh]
    by_cases hlow : x < -limit
    · rw [if_pos hlow, max_eq_left hlow.le]
    · rw [if_neg hlow, max_eq_right (not_lt.mp hlow)]

/-- **Without saturation** the output is the proportional part of the change of the error plus the integral
part of all errors. -/
theorem run_of_inside (g : Gains K) (c : Incremental K) (errors : List K)
    (hinside : Along (Incremental.step g) (Incremental.Inside g) c errors) :
    (run (Incremental.step g) c errors).out =
      c.out + g.kp * (errors.getLastD c.lastError - c.lastError) + g.ki * errors.sum := by
  induction errors generalizing c with
  | nil => simp
  | cons error errors ih =>
      obtain ⟨hfirst, hrest⟩ := hinside
      have hout : (c.step g error).out = c.demand g error := clamp_of_abs_le hfirst
      have hlast : (c.step g error).lastError = error := rfl
      rw [run_cons, ih _ hrest, hout, hlast, List.getLastD_cons, List.sum_cons, Incremental.demand]
      ring

end Steps

end FocFirmware.AntiWindup
