import FocFirmware.Config

/-! `fast_sin` and `fast_cos` of `fast_sin.h`: the argument is folded to one half turn around zero, then a
polynomial in its square stands for the series. -/

namespace FocFirmware

open Remainder

section Model

variable {K : Type*} [Field K] [LinearOrder K] [FloorRing K]

def mPi : K := 3.1415926

def f1 (x : K) : K :=
  let u := 1.3528548e-10
  let u := u * x + -2.4703144e-08
  let u := u * x + 2.7532926e-06
  let u := u * x + -0.00019840381
  let u := u * x + 0.0083333179
  u * x + -0.16666666

def f2 (x : K) : K :=
  let u := 1.7290616e-09
  let u := u * x + -2.7093486e-07
  let u := u * x + 2.4771643e-05
  let u := u * x + -0.0013887906
  let u := u * x + 0.041666519
  u * x + -0.49999991

/-- The half turns are taken off, an odd one of them to the other side. -/
def foldHalfTurns (x : K) : K :=
  let si := truncToInt (x * 0.31830988)
  let x := x - si * mPi
  if si % 2 ≠ 0 then if 0 < x then x - mPi else x + mPi else x

def fastSin (x : K) : K :=
  let x := foldHalfTurns x
  x + x * x * x * f1 (x * x)

def fastCos (x : K) : K :=
  let x := foldHalfTurns x
  1 + x * x * f2 (x * x)

end Model

end FocFirmware
