import FocFirmware.BaseAntiWindup
import FocFirmware.LoopLimits

/-! The three loops as positional controllers. Between two control steps of a loop anything may happen but
to its own controller; the outputs are those of a positional controller whose integrator is calculated back
from the clamped output, in and out of saturation. -/

namespace FocFirmware

open AntiWindup Runs

section Model

variable {K : Type*} [Field K] [LinearOrder K]

def PfocState.withPid (pFOC : PfocState K) : Loop → PidController K → PfocState K
  | .speed, pid => { pFOC with speedPID := pid }
  | .id, pid => { pFOC with idPID := pid }
  | .iq, pid => { pFOC with iqPID := pid }

/-- The control step of a loop. -/
def PfocState.control (pFOC : PfocState K) : Loop → PfocState K
  | .speed => speedPIControl pFOC
  | .id => currentPIControlID pFOC
  | .iq => currentPIControlIQ pFOC

/-- Target less measurement; the target of the q axis is the output of the speed loop. -/
def PfocState.error (loop : Loop) (pFOC : PfocState K) : K :=
  match loop with
  | .speed => pFOC.tarSpeed - pFOC.speed
  | .id => pFOC.tarid - pFOC.id
  | .iq => pFOC.speedPID.out - pFOC.iq

/-- A control step on the state `input`, which shares with the last one the loop's own controller only. -/
def controlStep (loop : Loop) (pFOC input : PfocState K) : PfocState K :=
  (input.withPid loop (pFOC.pid loop)).control loop

def PidController.gains (pid : PidController K) : Gains K := ⟨pid.kp, pid.ki, |pid.outMax|⟩

def PidController.incremental (pid : PidController K) : Incremental K := ⟨pid.out, pid.lastBias⟩

/-- The sum that the control step adds up is within the limit, so that the step does not clamp it. -/
def Unclamped (loop : Loop) (pFOC input : PfocState K) : Prop :=
  let pid := pFOC.pid loop
  let bias := input.error loop
  |pid.out + (pid.kp * (bias - pid.lastBias) + pid.ki * bias)| ≤ |pid.outMax|

end Model

section Refinement

variable {K : Type*} [Field K] [LinearOrder K] [IsStrictOrderedRing K]

theorem piStep_incremental (pid : PidController K) (tar pre : K) :
    (piStep pid tar pre).incremental = pid.incremental.step pid.gains (tar - pre) := by
  simp only [PidController.incremental, Incremental.step, PidController.gains, clamp_eq_ite (abs_nonneg pid.outMax)]
  rfl

theorem controlStep_incremental (loop : Loop) (pFOC input : PfocState K) :
    ((controlStep loop pFOC input).pid loop).incremental =
      (pFOC.pid loop).incremental.step (pFOC.pid loop).gains (input.error loop) := by
  cases loop with
  | speed => exact piStep_incremental pFOC.speedPID input.tarSpeed input.speed
  | id => exact piStep_incremental pFOC.idPID input.tarid input.id
  | iq => exact piStep_incremental { pFOC.iqPID with tar := input.tariq } input.speedPID.out input.iq

omit [IsStrictOrderedRing K] in
theorem controlStep_gains (loop : Loop) (pFOC input : PfocState K) :
    ((controlStep loop pFOC input).pid loop).gains = (pFOC.pid loop).gains := by
  cases loop <;> rfl

/-- Over a run of control steps the loop is the incremental controller fed with its errors. -/
theorem run_incremental (loop : Loop) (pFOC : PfocState K) (inputs : List (PfocState K)) :
    ((run (controlStep loop) pFOC inputs).pid loop).incremental =
      run (Incremental.step (pFOC.pid loop).gains) (pFOC.pid loop).incremental (inputs.map (PfocState.error loop)) := by
  induction inputs generalizing pFOC with
  | nil => rfl
  | cons input inputs ih =>
      rw [run_cons, ih, controlStep_gains, controlStep_incremental, List.map_cons, run_cons]

theorem along_inside (loop : Loop) (pFOC : PfocState K) (inputs : List (PfocState K))
    (h : Along (controlStep loop) (Unclamped loop) pFOC inputs) :
    Along (Incremental.step (pFOC.pid loop).gains) (Incremental.Inside (pFOC.pid loop).gains)
      (pFOC.pid loop).incremental (inputs.map (PfocState.error loop)) := by
  induction inputs generalizing pFOC with
  | nil => trivial
  | cons input inputs ih =>
      have hrest := ih _ h.2
      rw [controlStep_gains, controlStep_incremental] at hrest
      exact ⟨h.1, hrest⟩

end Refinement

/-- **Incremental and positional.** After every run of control steps the output is that of the positional
controller with anti-windup on the same errors, and its integrator is the output less the proportional part
of the last error; where no step clamps, the output is the closed form of a PI controller. -/
theorem pi_loops_positional (loop : Loop) (pFOC : PfocState ℝ) (inputs : List (PfocState ℝ)) :
    let pid := pFOC.pid loop
    let errors := inputs.map (PfocState.error loop)
    let after := (run (controlStep loop) pFOC inputs).pid loop
    let ideal := run (Positional.step ⟨pid.kp, pid.ki, |pid.outMax|⟩) ⟨pid.out, pid.out - pid.kp * pid.lastBias⟩ errors
    after.out = ideal.out ∧ ideal.integrator = after.out - pid.kp * errors.getLastD pid.lastBias ∧
      (Along (controlStep loop) (Unclamped loop) pFOC inputs →
        after.out = pid.out + pid.kp * (errors.getLastD pid.lastBias - pid.lastBias) + pid.ki * errors.sum) := by
  intro pid errors after ideal
  have hafter : after.incremental = run (Incremental.step pid.gains) pid.incremental errors :=
    run_incremental loop pFOC inputs
  have hideal : after.incremental.positional pid.gains = ideal := by
    rw [hafter]
    exact run_positional pid.gains pid.incremental errors
  have hlast : after.lastBias = errors.getLastD pid.lastBias := by
    rw [show after.lastBias = after.incremental.lastError from rfl, hafter]
    exact run_lastError pid.gains pid.incremental errors
  refine ⟨?_, ?_, fun hunclamped => ?_⟩
  · rw [← hideal]
    rfl
  · rw [← hideal, ← hlast]
    rfl
  · have hclosed := run_of_inside pid.gains pid.incremental errors (along_inside loop pFOC inputs hunclamped)
    rw [← hafter] at hclosed
    exact hclosed

end FocFirmware
