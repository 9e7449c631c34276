import AnalogCircuit.Numeral.Fused
/-!
# The inverse hyperbolic tangent

The area of the hyperbola that belongs to a slope, in double precision, through the logarithm of `1 + x`,
which stays accurate where `1 + x` itself would be rounded away. The logarithm splits off a power of two
and sums a series for the rest; what rounding took from `1 + x` is added at the end. The steps of the
series are fused, so that each is rounded once.
-/

namespace AnalogCircuit.Hyperbolic

open Numeral (fused)

/-! ## The logarithm of one plus a number -/

/-- The upper half of the bits: the sign, the exponent and the first bits of the mantissa. -/
def upperWord (x : Float) : UInt32 := (x.toBits >>> 32).toUInt32

/-- The upper part of the logarithm of two; its multiples by exponents are exact. -/
def logTwoUpper : Float := 6.93147180369123816490e-01

/-- What is missing from the upper part. -/
def logTwoLower : Float := 1.90821492927058770002e-10

/-- The series of `log (1 + f) / s - 2 + s f`, for `s = f / (2 + f)` and `z = s²`. -/
def series (z : Float) : Float :=
  let z₂ := z * z
  let z₄ := z₂ * z₂
  let z₆ := z₄ * z₂
  let second := fused z 2.857142874366239149e-01 3.999999999940941908e-01
  let fourth := fused z 1.818357216161805012e-01 2.222219843214978396e-01
  let sixth := fused z 1.479819860511658591e-01 1.531383769920937332e-01
  fused z₆ sixth (fused z₄ fourth (fused z 6.666666666666735130e-01 (z₂ * second)))

/-- `log (1 + f) + k log 2 + c` for a small correction `c`. Two terms of the series are enough where `f`
is next to zero. -/
def joinLog (f k c : Float) (isNext : Bool) : Float :=
  let h := 0.5 * f * f
  if isNext then
    if f == 0 then if k == 0 then 0 else k * logTwoUpper + fused k logTwoLower c
    else
      let r := h * fused (-0.66666666666666666) f 1
      if k == 0 then f - r else k * logTwoUpper - ((r - fused k logTwoLower c) - f)
  else
    let s := f / (2 + f)
    let r := s * (h + series (s * s))
    if k == 0 then f - (h - r) else k * logTwoUpper - ((h - (r + fused k logTwoLower c)) - f)

/-- `log u + c`, with `u` as `(1 + f) 2 ^ k` for `1 + f` between the roots of a half and of two. -/
def logCorrected (u c : Float) : Float :=
  let exponent : Int := (u.toBits >>> 52).toNat - (1023 : Int)
  let mantissa := u.toBits &&& 0xFFFFFFFFFFFFF
  let (f, k) :=
    if mantissa < 0x6A09E00000000 then
      (Float.ofBits (mantissa ||| 0x3FF0000000000000) - 1, exponent)
    else (Float.ofBits (mantissa ||| 0x3FE0000000000000) - 1, exponent + 1)
  joinLog f (Float.ofInt k) c
    (mantissa < 0x100000000 || 0xFFFFD00000000 ≤ mantissa)

/-- The logarithm of `1 + x`. -/
def logOnePlus (x : Float) : Float :=
  let size := upperWord x.abs
  if x.isNaN then x
  else if x ≤ -1 then if x == -1 then -1 / 0 else 0 / 0
  else if size < 0x3C900000 then x
  else if size < 0x3E200000 then x - x * x * 0.5
  else if (if 0 < x then size < 0x3FDA827A else size ≤ 0x3FD2BEC3) then joinLog x 0 0 false
  else if size < 0x43400000 then
    let u := 1 + x
    logCorrected u ((if 2 ≤ u then 1 - (u - x) else x - (u - 1)) / u)
  else if x.isInf then x
  else logCorrected x 0

/-! ## The area -/

/-- The inverse hyperbolic tangent. -/
def artanh (x : Float) : Float := 0.5 * logOnePlus (2 * x / (1 - x))

end AnalogCircuit.Hyperbolic
