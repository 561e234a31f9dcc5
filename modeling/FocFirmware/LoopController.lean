import FocFirmware.AngleElectrical

/-! The three incremental PI loops of `current_control.c` and `speed_control.c`. The struct behind
`PFOC_State` is not in the tree; it has here the fields these functions use. -/

namespace FocFirmware

structure PidController (K : Type*) where
  kp : K
  ki : K
  kd : K
  tar : K
  pre : K
  bias : K
  lastBias : K
  out : K
  outMax : K

structure PfocState (K : Type*) where
  id : K
  iq : K
  tarid : K
  tariq : K
  tarSpeed : K
  idPID : PidController K
  iqPID : PidController K
  speedPID : PidController K
  mechanicalAngle : K
  speedLastAngle : K
  speed : K

section Model

variable {K : Type*} [Field K] [LinearOrder K]

/-- One step of an incremental PI loop; the last error is saved before the output is clamped. -/
def piStep (pid : PidController K) (tar pre : K) : PidController K :=
  let bias := tar - pre
  let out := pid.out + (pid.kp * (bias - pid.lastBias) + pid.ki * bias)
  let out := if out > |pid.outMax| then |pid.outMax| else out
  let out := if out < -|pid.outMax| then -|pid.outMax| else out
  { pid with pre := pre, tar := tar, bias := bias, lastBias := bias, out := out }

def setPidParams (pid : PidController K) (kp ki kd outMax : K) : PidController K :=
  { pid with kp := kp, ki := ki, kd := kd, outMax := outMax }

def currentPIControlID (pFOC : PfocState K) : PfocState K :=
  { pFOC with idPID := piStep pFOC.idPID pFOC.tarid pFOC.id }

/-- The target is first `tariq` and then at once the output of the speed loop. -/
def currentPIControlIQ (pFOC : PfocState K) : PfocState K :=
  let iqPID := { pFOC.iqPID with tar := pFOC.tariq }
  { pFOC with iqPID := piStep iqPID pFOC.speedPID.out pFOC.iq }

def setCurrentPIDTar (pFOC : PfocState K) (tarid tariq : K) : PfocState K :=
  { pFOC with tarid := tarid, tariq := tariq }

def setCurrentPIDParams (pFOC : PfocState K) (kp ki kd outMax : K) : PfocState K :=
  { pFOC with
    idPID := setPidParams pFOC.idPID kp ki kd outMax
    iqPID := setPidParams pFOC.iqPID kp ki kd outMax }

def speedPIControl (pFOC : PfocState K) : PfocState K :=
  { pFOC with speedPID := piStep pFOC.speedPID pFOC.tarSpeed pFOC.speed }

def setSpeedPIDTar (pFOC : PfocState K) (tarspeed : K) : PfocState K :=
  { pFOC with tarSpeed := tarspeed }

def setSpeedPIDParams (pFOC : PfocState K) (kp ki kd outMax : K) : PfocState K :=
  { pFOC with speedPID := setPidParams pFOC.speedPID kp ki kd outMax }

end Model

end FocFirmware
