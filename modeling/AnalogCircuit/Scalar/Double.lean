import AnalogCircuit.Numeral.Layout
import AnalogCircuit.Scalar.Basic
import AnalogCircuit.Scalar.Hyperbolic
/-!
# Double precision

Doubles as a number system. A double is kept as its bits, so that the total order, which follows the
bits, tells apart the two zeros and the two signs of NaN.

An operation on NaN yields this NaN, with its sign; the first one, if there are two. An operation on
numbers that has no result yields NaN with a negative sign; the inverse sine and cosine yield one with a
positive sign. Of two arguments one of which is NaN, the minimum and the maximum are the other one.
Rounding takes ties to even, and conversions to integers truncate.
-/

namespace AnalogCircuit

/-- A number in double precision, as its bits. -/
structure Double where
  bits : UInt64
deriving DecidableEq, Inhabited, Repr

namespace Double

/-! ## Bits -/

/-- The sign bit. -/
def isNegative (x : Double) : Bool := 0x8000000000000000 ≤ x.bits

def isNaN (x : Double) : Bool := 0x7FF0000000000000 < x.bits &&& 0x7FFFFFFFFFFFFFFF

/-- NaN with a positive sign. -/
def nan : Double := ⟨0x7FF8000000000000⟩

/-- NaN with a negative sign, the outcome of an operation that has no result. -/
def invalid : Double := ⟨0xFFF8000000000000⟩

/-- The number for calculation, where NaN has no sign. -/
def toFloat (x : Double) : Float := Float.ofBits x.bits

/-- The outcome of a calculation with numbers. -/
def ofFloat (x : Float) : Double := if x.isNaN then invalid else ⟨x.toBits⟩

/-- A function of one argument. -/
@[inline] def lift (f : Float → Float) (x : Double) : Double :=
  let r := f x.toFloat
  if !r.isNaN then ⟨r.toBits⟩ else if x.isNaN then x else invalid

/-- A function of two arguments. -/
@[inline] def lift₂ (f : Float → Float → Float) (x y : Double) : Double :=
  let r := f x.toFloat y.toFloat
  if !r.isNaN then ⟨r.toBits⟩ else if x.isNaN then x else if y.isNaN then y else invalid

/-! ## The total order -/

/-- The place of a double in the total order. -/
def place (x : Double) : Nat :=
  if x.isNegative then 0xFFFFFFFFFFFFFFFF - x.bits.toNat else x.bits.toNat + 0x8000000000000000

/-- The total order: NaN with a negative sign, the numbers, `-0` before `0`, NaN with a positive one. -/
def order (x y : Double) : Ordering := compare x.place y.place

theorem place_inj {x y : Double} (h : x.place = y.place) : x = y := by
  have := x.bits.toNat_lt
  have := y.bits.toNat_lt
  have same : x.bits.toNat = y.bits.toNat := by
    simp only [place, isNegative, decide_eq_true_eq, UInt64.le_iff_toNat_le, UInt64.reduceToNat] at h
    split at h <;> split at h <;> omega
  cases x
  cases y
  exact congrArg mk (UInt64.toNat_inj.mp same)

/-- The order takes no two doubles for the same. -/
theorem order_eq_iff {x y : Double} : order x y = .eq ↔ x = y :=
  ⟨fun h => place_inj (Nat.compare_eq_eq.mp h), fun h => h ▸ Nat.compare_eq_eq.mpr rfl⟩

/-! ## Conversions -/

/-- The double nearest to `digits · 10 ^ exponent`. Decimals far outside the range of doubles are told
by the number of their digits, before any power of ten is formed. -/
def ofDecimal (digits : Nat) (exponent : Int) : Double :=
  ofFloat <|
    if digits = 0 then 0
    else
      let magnitude : Int := (digits.log2 : Int) * 3 / 10 + exponent
      if 400 < magnitude then 1 / 0
      else if magnitude < -800 then 0
      else Float.ofScientific digits (exponent < 0) exponent.natAbs

def isFinite (x : Double) : Bool := x.toFloat.isFinite

/-- The value has no fractional part; infinities and NaN have no integer part. -/
def isIntegral (x : Double) : Bool := x.isFinite && x.toFloat.floor == x.toFloat

/-- The integer nearest to zero among the two neighbours; beyond 64 bits the nearest bound. -/
def toInt (x : Double) : Int := x.toFloat.toInt64.toInt

/-! ## Arithmetic -/

instance : Zero Double := ⟨⟨0⟩⟩
instance : One Double := ⟨⟨0x3FF0000000000000⟩⟩
instance : Add Double := ⟨lift₂ Float.add⟩
instance : Sub Double := ⟨lift₂ Float.sub⟩
instance : Mul Double := ⟨lift₂ Float.mul⟩
instance : Div Double := ⟨lift₂ Float.div⟩
instance : Neg Double := ⟨fun x => ⟨x.bits ^^^ 0x8000000000000000⟩⟩

/-- Numeric equality, by which the zeros are equal and NaN is not equal to itself. -/
def eq (x y : Double) : Bool := x.toFloat == y.toFloat

def lt (x y : Double) : Bool := x.toFloat < y.toFloat

def le (x y : Double) : Bool := x.toFloat ≤ y.toFloat

/-! ## Functions -/

/-- The magnitude, which has a positive sign. -/
def abs (x : Double) : Double := ⟨x.bits &&& 0x7FFFFFFFFFFFFFFF⟩

/-- The smaller number; of two equal ones the second. -/
def min (x y : Double) : Double := if x.isNaN || y.le x then y else x

/-- The larger number; of two equal ones the second. -/
def max (x y : Double) : Double := if x.isNaN || x.le y then y else x

/-- The sign as `1` or `-1`; zeros and NaN are their own sign. -/
def sign (x : Double) : Double := if lt 0 x then 1 else if x.lt 0 then -1 else x

/-- The nearest integer, a tie to the even one; the sign of a zero result is that of `x`. -/
def roundHalfEven (x : Float) : Float :=
  if !x.isFinite then x
  else
    let low := x.floor
    let rest := x - low
    let r :=
      if rest < 0.5 then low
      else if 0.5 < rest then low + 1
      else if (low / 2).floor == low / 2 then low
      else low + 1
    if r == 0 && Numeral.isNegative x then -0.0 else r

/-- An odd integer. -/
def isOdd (x : Double) : Bool :=
  x.isIntegral && (x.toFloat / 2).floor != x.toFloat / 2

/-- Exponentiation. An odd power of NaN with a negative sign has a positive one. -/
def pow (x y : Double) : Double :=
  let r := lift₂ Float.pow x y
  if x.isNaN && r.isNaN && y.isOdd then r.abs else r

/-- A function of the numbers from `-1` to `1`; of others it is NaN with a positive sign. -/
def liftUnit (f : Float → Float) (x : Double) : Double := if lt 1 x.abs then nan else lift f x

/-- The inverse sine. -/
def arcsin (x : Double) : Double := liftUnit Float.asin x

/-- The inverse cosine. -/
def arccos (x : Double) : Double := liftUnit Float.acos x

/-- The functions of one argument. -/
def unary (f : Builtin) (x : Double) : Double :=
  match f with
  | .abs => abs x
  | .sign => sign x
  | .sin => lift Float.sin x
  | .cos => lift Float.cos x
  | .tan => lift Float.tan x
  | .sec => 1 / lift Float.cos x
  | .csc => 1 / lift Float.sin x
  | .cot => 1 / lift Float.tan x
  | .asin => arcsin x
  | .acos => arccos x
  | .atan => lift Float.atan x
  | .asec => arccos (1 / x)
  | .acsc => arcsin (1 / x)
  | .acot => lift Float.atan (1 / x)
  | .sinh => lift Float.sinh x
  | .cosh => lift Float.cosh x
  | .tanh => lift Float.tanh x
  | .sech => 1 / lift Float.cosh x
  | .csch => 1 / lift Float.sinh x
  | .coth => 1 / lift Float.tanh x
  | .asinh => lift Float.asinh x
  | .acosh => lift Float.acosh x
  | .atanh => lift Hyperbolic.artanh x
  | .asech => lift Float.acosh (1 / x)
  | .acsch => lift Float.asinh (1 / x)
  | .acoth => lift Hyperbolic.artanh (1 / x)
  | .sqrt => lift Float.sqrt x
  | .exp => lift Float.exp x
  | .ln => lift Float.log x
  | .floor => lift Float.floor x
  | .ceiling => lift Float.ceil x
  | .round => lift roundHalfEven x
  | .min | .max | .log | .pow => x

/-- The functions of two arguments. -/
def binary (f : Builtin) (x y : Double) : Double :=
  match f with
  | .min => min x y
  | .max => max x y
  | .log => lift Float.log x / lift Float.log y
  | .pow => pow x y
  | _ => unary f x

instance : Scalar Double where
  ofDecimal := ofDecimal
  eq := eq
  lt := lt
  le := le
  order := order
  hash := bits
  isIntegral := isIntegral
  isFinite := isFinite
  toInt := toInt
  abs := abs
  max := max
  pow := pow
  unary := unary
  binary := binary
  text x := Numeral.plain x.toFloat

end Double

end AnalogCircuit
