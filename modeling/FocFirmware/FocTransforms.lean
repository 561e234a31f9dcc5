import FocFirmware.SineFast

/-! The transforms of `FOC.c` between the rotor frame, the stator frame and the three phases. -/

namespace FocFirmware

variable {K : Type*} [Field K] [LinearOrder K] [FloorRing K]

/-- The voltages of `inv_park_transform`, alpha and beta. -/
def invParkTransform (uq ud corrAngle : K) : K × K :=
  (-uq * fastSin corrAngle + ud * fastCos corrAngle, uq * fastCos corrAngle + ud * fastSin corrAngle)

/-- The phase voltages of `inv_clarke_transform`, which reads the global `g_udc`. -/
def invClarkeTransform (gUdc uAlpha uBeta : K) : K × K × K :=
  (uAlpha + gUdc / 2, (focSqrt3 * uBeta - uAlpha) / 2 + gUdc / 2, (-focSqrt3 * uBeta - uAlpha) / 2 + gUdc / 2)

/-- `clarke_transform` of two phase currents, the third being their negated sum. -/
def clarkeTransform (ia ib : K) : K × K := (ia, 1 / focSqrt3 * (ia + 2 * ib))

/-- The currents of `park_transform`, along the rotor and across it. -/
def parkTransform (iAlpha iBeta angleEl : K) : K × K :=
  (iAlpha * fastCos angleEl + iBeta * fastSin angleEl, -iAlpha * fastSin angleEl + iBeta * fastCos angleEl)

end FocFirmware
