import FocFirmware.BaseRemainder
import Mathlib.Algebra.Order.Archimedean.Real.Basic

/-! The constants of `foc_config.h`, each literal read as the decimal written. -/

namespace FocFirmware

variable {K : Type*} [Field K]

def focPolePairs : K := 7
def focStrongdrag : K := 1.0
def focPi : K := 3.14159
def foc2Pi : K := 6.28318
def focSqrt3 : K := 1.732
def foc1_2 : K := 0.5
def focEpsilon : K := 1e-6
def focAllDuty : K := 5000

variable [LinearOrder K] [IsStrictOrderedRing K]

theorem foc2Pi_pos : (0 : K) < foc2Pi := by norm_num [foc2Pi]

theorem focSqrt3_pos : (0 : K) < focSqrt3 := by norm_num [focSqrt3]

theorem focEpsilon_pos : (0 : K) < focEpsilon := by norm_num [focEpsilon]

theorem focEpsilon_lt_foc2Pi : (focEpsilon : K) < foc2Pi := by norm_num [focEpsilon, foc2Pi]

end FocFirmware
