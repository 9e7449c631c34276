import AnalogCircuit.Builtin
/-!
# Arithmetic

Everything from expressions to the running simulation is written over one class of number systems, so
that the same definitions run on doubles and can be reasoned about over an exact field. The class holds
the field operations, the comparisons a program makes, the built-in functions, and a total order that
tells apart what the comparisons do not.
-/

namespace AnalogCircuit

/-- A number system in which circuits are simulated. -/
class Scalar (α : Type) extends Zero α, One α, Add α, Sub α, Mul α, Div α, Neg α where
  /-- The number nearest to `digits · 10 ^ exponent`. -/
  ofDecimal (digits : Nat) (exponent : Int) : α
  /-- Numeric equality. -/
  eq : α → α → Bool
  /-- Numeric order. -/
  lt : α → α → Bool
  le : α → α → Bool
  /-- A total order by which constants are sorted and identified. -/
  order : α → α → Ordering
  /-- A hash that respects `order`. -/
  hash : α → UInt64
  /-- The number has no fractional part. -/
  isIntegral : α → Bool
  isFinite : α → Bool
  /-- The integer part of a number. -/
  toInt : α → Int
  /-- The magnitude. -/
  abs : α → α
  /-- The larger of two numbers. -/
  max : α → α → α
  /-- Exponentiation. -/
  pow : α → α → α
  /-- The built-in functions of one argument. -/
  unary : Builtin → α → α
  /-- The built-in functions of two arguments. -/
  binary : Builtin → α → α → α
  /-- The written form. -/
  text : α → List Char

namespace Scalar

variable {α : Type} [Scalar α]

/-- Literals such as `0.5` denote decimals. -/
instance (priority := low) : OfScientific α where
  ofScientific digits negative exponent :=
    ofDecimal digits (if negative then -(exponent : Int) else exponent)

/-- A natural number. -/
def ofNat (n : Nat) : α := ofDecimal n 0

/-- The number as it is printed. -/
def toText (x : α) : String := String.ofList (text x)

def isZero (x : α) : Bool := eq x 0

def isOne (x : α) : Bool := eq x 1

/-- A truth value as a number. -/
def ofBool (b : Bool) : α := if b then 1 else 0

/-! ## Integer powers -/

/-- `r · a ^ n` by squaring: the bits of `n` are read from the lowest. -/
def powNat (r a : α) (n : Nat) : α :=
  let r := if n % 2 = 1 then r * a else r
  if n < 2 then r else powNat r (a * a) (n / 2)
termination_by n
decreasing_by omega

/-- `x ^ n`; a negative power is the reciprocal of the positive one. -/
def powInt (x : α) (n : Int) : α :=
  let r := powNat 1 x n.natAbs
  if n < 0 then 1 / r else r

/-! ## Built-in functions -/

/-- The value of a built-in function, if the arguments are as many as it takes. -/
def applyBuiltin (f : Builtin) : List α → Option α
  | [x] => if f.arity = 1 then some (unary f x) else none
  | [x, y] => if f.arity = 2 then some (binary f x y) else none
  | _ => none

end Scalar

end AnalogCircuit
