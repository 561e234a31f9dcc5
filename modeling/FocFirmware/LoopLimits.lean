import FocFirmware.BaseRuns
import FocFirmware.LoopController

/-! The output limits of the three loops over whole runs. Only a control step clamps; a setter that
lowers a limit leaves the held output where it is. A loop is therefore beyond its limit exactly from
such a setter to the loop's next control step or the next setter of its limit. -/

namespace FocFirmware

open Runs

inductive Loop where
  | speed
  | id
  | iq
  deriving DecidableEq

def PfocState.pid {K : Type*} (pFOC : PfocState K) : Loop → PidController K
  | .speed => pFOC.speedPID
  | .id => pFOC.idPID
  | .iq => pFOC.iqPID

/-- The operations on the controllers; `measure` is a new reading between two calls. -/
inductive LoopCall (K : Type*) where
  | setSpeedPIDParams (kp ki kd outMax : K)
  | setSpeedPIDTar (tarspeed : K)
  | setCurrentPIDParams (kp ki kd outMax : K)
  | setCurrentPIDTar (tarid tariq : K)
  | speedPIControl
  | currentPIControlID
  | currentPIControlIQ
  | measure (speed id iq : K)

namespace LoopCall

variable {K : Type*}

/-- The limit a call gives to a loop. -/
def newLimit : LoopCall K → Loop → Option K
  | setSpeedPIDParams _ _ _ outMax, .speed => some outMax
  | setCurrentPIDParams _ _ _ outMax, .id => some outMax
  | setCurrentPIDParams _ _ _ outMax, .iq => some outMax
  | _, _ => none

/-- Whether a call is the control step of a loop. -/
def isControl : LoopCall K → Loop → Bool
  | speedPIControl, .speed => true
  | currentPIControlID, .id => true
  | currentPIControlIQ, .iq => true
  | _, _ => false

end LoopCall

section Model

variable {K : Type*} [Field K] [LinearOrder K]

def PidController.zero : PidController K := ⟨0, 0, 0, 0, 0, 0, 0, 0, 0⟩

def PfocState.zero : PfocState K := ⟨0, 0, 0, 0, 0, .zero, .zero, .zero, 0, 0, 0⟩

def loopStep (pFOC : PfocState K) : LoopCall K → PfocState K
  | .setSpeedPIDParams kp ki kd outMax => setSpeedPIDParams pFOC kp ki kd outMax
  | .setSpeedPIDTar tarspeed => setSpeedPIDTar pFOC tarspeed
  | .setCurrentPIDParams kp ki kd outMax => setCurrentPIDParams pFOC kp ki kd outMax
  | .setCurrentPIDTar tarid tariq => setCurrentPIDTar pFOC tarid tariq
  | .speedPIControl => speedPIControl pFOC
  | .currentPIControlID => currentPIControlID pFOC
  | .currentPIControlIQ => currentPIControlIQ pFOC
  | .measure speed id iq => { pFOC with speed := speed, id := id, iq := iq }

/-- The controllers after a sequence of calls from zero-initialised state. -/
def loopRun (calls : List (LoopCall K)) : PfocState K := run loopStep .zero calls

/-- A call lowered the limit of a loop below the output the loop then held, and no later call has set
the limit again or run the loop's control step. -/
def LoweredSince (loop : Loop) (calls : List (LoopCall K)) : Prop :=
  ∃ first call last, calls = first ++ call :: last ∧
    (∃ outMax, call.newLimit loop = some outMax ∧ |outMax| < |((loopRun first).pid loop).out|) ∧
    ∀ later ∈ last, later.newLimit loop = none ∧ later.isControl loop = false

end Model

section Limits

variable {K : Type*} [Field K] [LinearOrder K]

theorem loopStep_newLimit (pFOC : PfocState K) {call : LoopCall K} {loop : Loop} {outMax : K}
    (h : call.newLimit loop = some outMax) : ((loopStep pFOC call).pid loop).outMax = outMax ∧
      ((loopStep pFOC call).pid loop).out = (pFOC.pid loop).out := by
  cases call <;> cases loop <;> simp only [LoopCall.newLimit, reduceCtorEq, Option.some.injEq] at h <;>
    exact ⟨h, rfl⟩

theorem loopStep_other (pFOC : PfocState K) {call : LoopCall K} {loop : Loop} (hlimit : call.newLimit loop = none)
    (hcontrol : call.isControl loop = false) : (loopStep pFOC call).pid loop = pFOC.pid loop := by
  cases call with
  | setSpeedPIDParams => cases loop <;> first | rfl | cases hlimit
  | setCurrentPIDParams => cases loop <;> first | rfl | cases hlimit
  | speedPIControl => cases loop <;> first | rfl | cases hcontrol
  | currentPIControlID => cases loop <;> first | rfl | cases hcontrol
  | currentPIControlIQ => cases loop <;> first | rfl | cases hcontrol
  | setSpeedPIDTar | setCurrentPIDTar | measure => cases loop <;> rfl

def BeyondLimit (loop : Loop) (pFOC : PfocState K) : Prop := |(pFOC.pid loop).outMax| < |(pFOC.pid loop).out|

/-- The call sets the limit of a loop below the output the loop holds. -/
def LowersLimit (loop : Loop) (pFOC : PfocState K) (call : LoopCall K) : Prop :=
  ∃ outMax, call.newLimit loop = some outMax ∧ |outMax| < |(pFOC.pid loop).out|

/-- The call sets the limit of a loop or runs its control step. -/
def ConcernsLoop (loop : Loop) (call : LoopCall K) : Prop :=
  ¬(call.newLimit loop = none ∧ call.isControl loop = false)

theorem beyondLimit_of_not_concerns (loop : Loop) (pFOC : PfocState K) (call : LoopCall K)
    (h : ¬ConcernsLoop loop call) : BeyondLimit loop (loopStep pFOC call) ↔ BeyondLimit loop pFOC := by
  obtain ⟨hlimit, hcontrol⟩ := not_not.mp h
  rw [BeyondLimit, loopStep_other pFOC hlimit hcontrol]
  rfl

theorem not_beyondLimit_zero (loop : Loop) : ¬BeyondLimit loop (PfocState.zero : PfocState K) := by
  cases loop <;> exact lt_irrefl _

variable [IsStrictOrderedRing K]

/-- A control step leaves its own loop inside the limit in force. -/
theorem piStep_out_le (pid : PidController K) (tar pre : K) : |(piStep pid tar pre).out| ≤ |pid.outMax| := by
  have hlimit := abs_nonneg pid.outMax
  simp only [piStep, abs_le]
  split_ifs <;> constructor <;> linarith

theorem loopStep_control (pFOC : PfocState K) {call : LoopCall K} {loop : Loop} (h : call.isControl loop = true) :
    |((loopStep pFOC call).pid loop).out| ≤ |((loopStep pFOC call).pid loop).outMax| := by
  cases call <;> cases loop <;> simp only [LoopCall.isControl, Bool.false_eq_true] at h <;>
    exact piStep_out_le _ _ _

theorem beyondLimit_of_concerns (loop : Loop) (pFOC : PfocState K) (call : LoopCall K) (h : ConcernsLoop loop call) :
    BeyondLimit loop (loopStep pFOC call) ↔ LowersLimit loop pFOC call := by
  cases hnew : call.newLimit loop with
  | some outMax =>
      obtain ⟨hmax, hout⟩ := loopStep_newLimit pFOC hnew
      simp only [BeyondLimit, LowersLimit, hnew, hmax, hout, Option.some.injEq, exists_eq_left']
  | none =>
      have hcontrol : call.isControl loop = true := by
        rw [ConcernsLoop, hnew] at h
        simpa using h
      apply iff_of_false (loopStep_control pFOC hcontrol).not_gt
      rintro ⟨outMax, hsome, -⟩
      rw [hnew] at hsome
      cases hsome

/-- A loop is beyond its limit exactly while a lowered limit waits for the loop's control step. -/
theorem loopRun_beyond_iff (loop : Loop) (calls : List (LoopCall K)) :
    BeyondLimit loop (loopRun calls) ↔ LoweredSince loop calls := by
  have hlast := holds_iff_last_set (beyondLimit_of_concerns loop) (beyondLimit_of_not_concerns loop)
    (not_beyondLimit_zero loop) calls
  apply hlast.trans
  constructor
  · rintro ⟨first, call, last, hsplit, -, hset, hrest⟩
    exact ⟨first, call, last, hsplit, hset, fun later hlater => not_not.mp (hrest later hlater)⟩
  · rintro ⟨first, call, last, hsplit, ⟨outMax, hnew, hlt⟩, hrest⟩
    refine ⟨first, call, last, hsplit, ?_, ⟨outMax, hnew, hlt⟩, fun later hlater => not_not.mpr (hrest later hlater)⟩
    rintro ⟨hnone, -⟩
    rw [hnone] at hnew
    cases hnew

end Limits

/-- **The controller limits.** After every run of calls each loop is inside its limit unless its
limit was lowered below the output it holds and its control step has not run since; and the target
the q-axis step takes is inside the speed loop's limit under the same exception for the speed loop. -/
theorem limits_hold_unless_lowered (calls : List (LoopCall ℝ)) :
    (∀ loop, |((loopRun calls).pid loop).out| ≤ |((loopRun calls).pid loop).outMax| ↔ ¬LoweredSince loop calls) ∧
      (∀ loop call, call.isControl loop = true → ¬LoweredSince loop (calls ++ [call])) ∧
      (|(loopRun (calls ++ [.currentPIControlIQ])).iqPID.tar| ≤ |(loopRun calls).speedPID.outMax| ↔
        ¬LoweredSince .speed calls) := by
  have hiff : ∀ loop, |((loopRun calls).pid loop).out| ≤ |((loopRun calls).pid loop).outMax| ↔
      ¬LoweredSince loop calls := fun loop => by
    rw [← loopRun_beyond_iff, BeyondLimit, not_lt]
  refine ⟨hiff, ?_, ?_⟩
  · intro loop call hcontrol
    rw [← loopRun_beyond_iff, BeyondLimit, not_lt, loopRun, run_concat]
    exact loopStep_control _ hcontrol
  · rw [loopRun, run_concat]
    exact hiff .speed

/-- Lowering the speed limit from 10 to 1 with the output at 5 leaves the output, and the next q-axis
target, beyond the limit. -/
theorem limits_broken_by_setter :
    let calls : List (LoopCall ℝ) := [.setSpeedPIDParams 1 0 0 10, .setSpeedPIDTar 5, .speedPIControl,
      .setSpeedPIDParams 1 0 0 1, .currentPIControlIQ]
    ¬(∀ loop, |((loopRun calls).pid loop).out| ≤ |((loopRun calls).pid loop).outMax|) ∧
      ¬|(loopRun calls).iqPID.tar| ≤ |(loopRun calls).speedPID.outMax| := by
  intro calls
  have hspeed : (loopRun calls).speedPID.out = 5 ∧ (loopRun calls).speedPID.outMax = 1 := by
    norm_num [calls, loopRun, loopStep, setSpeedPIDParams, setSpeedPIDTar, speedPIControl, currentPIControlIQ,
      setPidParams, piStep, PfocState.zero, PidController.zero]
  have htar : (loopRun calls).iqPID.tar = (loopRun calls).speedPID.out := rfl
  rw [htar, hspeed.1, hspeed.2]
  refine ⟨fun h => ?_, by norm_num⟩
  have hle := h .speed
  rw [show (loopRun calls).pid .speed = (loopRun calls).speedPID from rfl, hspeed.1, hspeed.2] at hle
  norm_num at hle

end FocFirmware
