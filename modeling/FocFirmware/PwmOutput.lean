import FocFirmware.Config

/-! The PWM output of `FOC.c`: limits, duties and the compare values of timer 1. Voltages strictly inside
the supply pass all six limits unchanged. -/

namespace FocFirmware

open Remainder

section Model

variable {K : Type*} [Field K] [LinearOrder K] [FloorRing K]

/-- `LimitValue` of `my_math.c`. -/
def limitValue (input minValue maxValue : K) : K :=
  if input ≥ maxValue then maxValue
  else if input ≤ minValue then minValue
  else input

/-- The globals of `FOC.c` and the compare registers of TMR1. -/
structure FocGlobals (K : Type*) where
  gUdc : K
  gZeroOffset : K
  gPwmA : K
  gPwmB : K
  gPwmC : K
  c1dt : ℤ
  c2dt : ℤ
  c3dt : ℤ
  c4dt : ℤ

def setpwmChannel (pwmA pwmB pwmC : K) (g : FocGlobals K) : FocGlobals K :=
  { g with
    c1dt := truncToInt (pwmA * focAllDuty)
    c2dt := truncToInt (pwmB * focAllDuty)
    c3dt := truncToInt (pwmC * focAllDuty)
    c4dt := truncToInt (focAllDuty * 0.95 : K) }

def motorSetPwm (ua ub uc : K) (g : FocGlobals K) : FocGlobals K :=
  let ua := limitValue ua 0 g.gUdc
  let ub := limitValue ub 0 g.gUdc
  let uc := limitValue uc 0 g.gUdc
  let g := { g with
    gPwmA := limitValue (ua / g.gUdc) 0 1
    gPwmB := limitValue (ub / g.gUdc) 0 1
    gPwmC := limitValue (uc / g.gUdc) 0 1 }
  setpwmChannel g.gPwmA g.gPwmB g.gPwmC g

end Model

section Limits

variable {K : Type*} [Field K] [LinearOrder K] [IsStrictOrderedRing K] [FloorRing K]

/-- Neither limit of `MotorSetPwm` changes this voltage. -/
def PassesLimits (gUdc u : K) : Prop := limitValue u 0 gUdc = u ∧ limitValue (u / gUdc) 0 1 = u / gUdc

omit [Field K] [IsStrictOrderedRing K] [FloorRing K] in
theorem limitValue_of_mem {x low high : K} (hlow : low < x) (hhigh : x < high) : limitValue x low high = x := by
  rw [limitValue, if_neg (not_le.mpr hhigh), if_neg (not_le.mpr hlow)]

omit [FloorRing K] in
theorem passesLimits_of_mem {gUdc u : K} (hlow : 0 < u) (hhigh : u < gUdc) : PassesLimits gUdc u := by
  have hUdc : 0 < gUdc := hlow.trans hhigh
  exact ⟨limitValue_of_mem hlow hhigh, limitValue_of_mem (div_pos hlow hUdc) ((div_lt_one hUdc).mpr hhigh)⟩

theorem truncToInt_duty {gUdc u : K} (hlow : 0 < u) (hhigh : u < gUdc) :
    truncToInt (u / gUdc * focAllDuty) = ⌊focAllDuty * (u / gUdc)⌋ := by
  have hduty : 0 < u / gUdc := div_pos hlow (hlow.trans hhigh)
  have hall : (0 : K) < focAllDuty := by norm_num [focAllDuty]
  rw [mul_comm, truncToInt_of_nonneg (mul_pos hall hduty).le]

/-- Voltages inside the supply come out as their share of it. -/
theorem motorSetPwm_of_mem {g : FocGlobals K} {ua ub uc : K} (ha : 0 < ua ∧ ua < g.gUdc) (hb : 0 < ub ∧ ub < g.gUdc)
    (hc : 0 < uc ∧ uc < g.gUdc) :
    motorSetPwm ua ub uc g =
      { g with
        gPwmA := ua / g.gUdc, gPwmB := ub / g.gUdc, gPwmC := uc / g.gUdc
        c1dt := ⌊focAllDuty * (ua / g.gUdc)⌋
        c2dt := ⌊focAllDuty * (ub / g.gUdc)⌋
        c3dt := ⌊focAllDuty * (uc / g.gUdc)⌋
        c4dt := truncToInt (focAllDuty * 0.95 : K) } := by
  obtain ⟨ha1, ha2⟩ := passesLimits_of_mem ha.1 ha.2
  obtain ⟨hb1, hb2⟩ := passesLimits_of_mem hb.1 hb.2
  obtain ⟨hc1, hc2⟩ := passesLimits_of_mem hc.1 hc.2
  simp only [motorSetPwm, setpwmChannel, ha1, ha2, hb1, hb2, hc1, hc2, truncToInt_duty ha.1 ha.2,
    truncToInt_duty hb.1 hb.2, truncToInt_duty hc.1 hc.2]

end Limits

end FocFirmware
