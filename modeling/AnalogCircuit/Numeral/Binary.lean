/-!
# Binary values and decimal grids

A finite double is `m · 2 ^ q` for natural `m`. This module decodes it, compares it with the points
`d · 10 ^ j` of a decimal grid in exact natural arithmetic, and rounds it onto such a grid. Nothing
here loops: every comparison is one cross-multiplication.
-/

namespace AnalogCircuit.Numeral

/-! ## Values -/

/-- A finite non-negative binary value `mantissa · 2 ^ exponent`. -/
structure Binary where
  mantissa : Nat
  exponent : Int
  /-- The gap to the value below is half the gap to the value above. -/
  narrowBelow : Bool

/-- A decimal value `digits · 10 ^ exponent`. -/
structure Decimal where
  digits : Nat
  exponent : Int
deriving DecidableEq, Repr

/-- The magnitude of a finite double; infinities and NaN have to be told apart before. -/
def Binary.ofFloat (x : Float) : Binary :=
  let bits := x.toBits
  let e := ((bits >>> 52) &&& 0x7FF).toNat
  let f := (bits &&& 0xFFFFFFFFFFFFF).toNat
  if e = 0 then ⟨f, -1074, false⟩ else ⟨Nat.pow 2 52 + f, (e : Int) - 1075, f = 0 ∧ 1 < e⟩

/-- The sign bit of a double; it tells the two zeros apart. -/
def isNegative (x : Float) : Bool := 0x8000000000000000 ≤ x.toBits

/-! ## Comparison with a decimal grid -/

/-- Compares `a · 10 ^ i` with `n · 2 ^ j`. -/
def compareScaled (a : Nat) (i : Int) (n : Nat) (j : Int) : Ordering :=
  compare (a * Nat.pow 10 i.toNat * Nat.pow 2 (-j).toNat)
    (n * Nat.pow 2 j.toNat * Nat.pow 10 (-i).toNat)

namespace Binary

/-- The reals that round to `x` are those between these quarters of its last place. -/
def lowerQuarters (x : Binary) : Nat :=
  if x.narrowBelow then 4 * x.mantissa - 1 else 4 * x.mantissa - 2

/-- The upper end of the rounding interval, in quarters of the last place. -/
def upperQuarters (x : Binary) : Nat := 4 * x.mantissa + 2

/-- `d` lies among the reals that round to `x`; the ends belong to an even mantissa. -/
def readsBack (x : Binary) (d : Decimal) : Bool :=
  let inclusive := x.mantissa % 2 == 0
  let low := compareScaled d.digits d.exponent x.lowerQuarters (x.exponent - 2)
  let high := compareScaled d.digits d.exponent x.upperQuarters (x.exponent - 2)
  (low == .gt || (inclusive && low == .eq)) && (high == .lt || (inclusive && high == .eq))

/-- The least `k` with `x < 10 ^ k`, for a positive `x`; the binary logarithm is off by one at most. -/
def magnitude (x : Binary) : Int :=
  let guess := ((x.mantissa.log2 : Int) + x.exponent) * 30103 / 100000
  let below (k : Int) : Bool := compareScaled 1 k x.mantissa x.exponent == .gt
  if below (guess - 1) then guess - 1
  else if below guess then guess
  else if below (guess + 1) then guess + 1
  else guess + 2

/-- Numerator and denominator of `x / 10 ^ j`. -/
def overGrid (x : Binary) (j : Int) : Nat × Nat :=
  (x.mantissa * Nat.pow 2 x.exponent.toNat * Nat.pow 10 (-j).toNat,
    Nat.pow 2 (-x.exponent).toNat * Nat.pow 10 j.toNat)

end Binary

end AnalogCircuit.Numeral
