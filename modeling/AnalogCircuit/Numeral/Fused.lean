import AnalogCircuit.Numeral.Rounded
/-!
# Fused arithmetic

A product and a sum with a single rounding. Every finite double is an integer multiple of a power of two,
and so are products and sums of such values; `a * b + c` is formed without loss and rounded at the end,
a tie to the even neighbour.
-/

namespace AnalogCircuit.Numeral

/-- A binary value `numerator · 2 ^ exponent`, exact before it is rounded. -/
structure Unrounded where
  numerator : Int
  exponent : Int

namespace Unrounded

/-- The value of a finite double. -/
def ofFloat (x : Float) : Unrounded :=
  let b := Binary.ofFloat x
  ⟨if isNegative x then -b.mantissa else b.mantissa, b.exponent⟩

/-- The value in units of `2 ^ e`, for `e` up to its own exponent. -/
def inUnits (x : Unrounded) (e : Int) : Int := x.numerator * Nat.pow 2 (x.exponent - e).toNat

/-- The exact product. -/
def mul (x y : Unrounded) : Unrounded := ⟨x.numerator * y.numerator, x.exponent + y.exponent⟩

/-- The exact sum, in units of the smaller of the two exponents. -/
def add (x y : Unrounded) : Unrounded :=
  let e := min x.exponent y.exponent
  ⟨x.inUnits e + y.inUnits e, e⟩

/-- How many of the last bits of the numerator a double has no room for. -/
def surplus (x : Unrounded) : Nat :=
  (max ((x.numerator.natAbs.log2 : Int) - 52) (-1074 - x.exponent)).toNat

/-- The nearest double, a tie to the even neighbour; a zero has no sign. -/
def toFloat (x : Unrounded) : Float :=
  let n := x.surplus
  let r := (Float.ofNat (roundHalfEven x.numerator.natAbs (Nat.pow 2 n))).scaleB (x.exponent + n)
  if x.numerator < 0 then -r else r

end Unrounded

/-- `a * b + c` for finite numbers, rounded once. -/
def fused (a b c : Float) : Float :=
  (((Unrounded.ofFloat a).mul (Unrounded.ofFloat b)).add (Unrounded.ofFloat c)).toFloat

end AnalogCircuit.Numeral
