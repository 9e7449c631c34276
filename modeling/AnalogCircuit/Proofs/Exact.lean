import Mathlib.Algebra.BigOperators.Ring.List
import Mathlib.Algebra.CharZero.Infinite
import Mathlib.Algebra.Order.Ring.Rat
import Mathlib.Algebra.Polynomial.FieldDivision
import Mathlib.Data.List.DropRight
import Mathlib.Data.Rat.Floor
import Mathlib.Tactic.FieldSimp
import Mathlib.Tactic.LinearCombination
import Mathlib.Tactic.Ring
import AnalogCircuit.Expr.Terms
/-!
# Exact arithmetic

Circuits are simulated in doubles, and what the library says about equations holds up to rounding. The
class below is the arithmetic without rounding: a field of characteristic zero in which a decimal denotes
what it says, an integer power is the power of the field, and constants are identified exactly when they
are equal. Nothing is assumed about the built-in functions, nor about the order of numbers.

Division by zero gives zero, as in every field of the mathematical library; where a law needs a divisor
other than zero it says so.
-/

namespace AnalogCircuit

/-- A number system that computes without rounding. -/
class ExactScalar (α : Type) extends Field α, Scalar α, CharZero α where
  ofDecimal_eq (digits : Nat) (exponent : Int) : ofDecimal digits exponent = digits * 10 ^ exponent
  eq_iff {a b : α} : eq a b = true ↔ a = b
  order_eq_iff {a b : α} : order a b = .eq ↔ a = b
  isIntegral_intCast (n : Int) : isIntegral (n : α) = true
  intCast_toInt {a : α} : isIntegral a = true → ((toInt a : Int) : α) = a
  pow_intCast (a : α) (n : Int) : Scalar.pow a (n : α) = a ^ n

namespace Scalar

variable {α : Type} [ExactScalar α]

/-! ## Constants -/

@[simp] theorem isZero_iff {a : α} : isZero a = true ↔ a = 0 := ExactScalar.eq_iff

@[simp] theorem isOne_iff {a : α} : isOne a = true ↔ a = 1 := ExactScalar.eq_iff

theorem isZero_eq_false_iff {a : α} : isZero a = false ↔ a ≠ 0 := by
  rw [← Bool.not_eq_true, isZero_iff]

/-- Of the truth values, false is zero. -/
theorem isZero_ofBool (b : Bool) : isZero (ofBool b : α) = !b := by
  cases b with
  | false => exact isZero_iff.mpr rfl
  | true => exact isZero_eq_false_iff.mpr one_ne_zero

/-! ## Integers -/

@[simp] theorem toInt_intCast (n : Int) : toInt (n : α) = n :=
  Int.cast_injective (α := α) (ExactScalar.intCast_toInt (ExactScalar.isIntegral_intCast n))

theorem isIntegral_iff {a : α} : isIntegral a = true ↔ ∃ n : Int, a = n := by
  constructor
  · intro h
    exact ⟨toInt a, (ExactScalar.intCast_toInt h).symm⟩
  · rintro ⟨n, rfl⟩
    exact ExactScalar.isIntegral_intCast n

@[simp] theorem isIntegral_one : isIntegral (1 : α) = true :=
  isIntegral_iff.mpr ⟨1, Int.cast_one.symm⟩

@[simp] theorem isIntegral_zero : isIntegral (0 : α) = true :=
  isIntegral_iff.mpr ⟨0, Int.cast_zero.symm⟩

@[simp] theorem toInt_one : toInt (1 : α) = 1 := by
  rw [← Int.cast_one, toInt_intCast]

@[simp] theorem toInt_zero : toInt (0 : α) = 0 := by
  rw [← Int.cast_zero, toInt_intCast]

theorem isIntegral_add {a b : α} (ha : isIntegral a = true) (hb : isIntegral b = true) :
    isIntegral (a + b) = true := by
  obtain ⟨m, rfl⟩ := isIntegral_iff.mp ha
  obtain ⟨n, rfl⟩ := isIntegral_iff.mp hb
  exact isIntegral_iff.mpr ⟨m + n, (Int.cast_add m n).symm⟩

theorem isIntegral_mul {a b : α} (ha : isIntegral a = true) (hb : isIntegral b = true) :
    isIntegral (a * b) = true := by
  obtain ⟨m, rfl⟩ := isIntegral_iff.mp ha
  obtain ⟨n, rfl⟩ := isIntegral_iff.mp hb
  exact isIntegral_iff.mpr ⟨m * n, (Int.cast_mul m n).symm⟩

theorem isIntegral_neg {a : α} (ha : isIntegral a = true) : isIntegral (-a) = true := by
  obtain ⟨m, rfl⟩ := isIntegral_iff.mp ha
  exact isIntegral_iff.mpr ⟨-m, (Int.cast_neg m).symm⟩

/-! ## Powers -/

/-- Raising to an integral exponent is the power of the field. -/
theorem pow_eq_zpow {a e : α} (he : isIntegral e = true) : Scalar.pow a e = a ^ toInt e := by
  obtain ⟨n, rfl⟩ := isIntegral_iff.mp he
  rw [toInt_intCast]
  exact ExactScalar.pow_intCast a n

/-- Squaring reads the exponent bit by bit and computes the power. -/
theorem powNat_eq (r a : α) (n : Nat) : powNat r a n = r * a ^ n := by
  induction n using Nat.strong_induction_on generalizing r a with
  | _ n ih =>
    have halves : a ^ n = a ^ (n % 2) * (a * a) ^ (n / 2) := by
      rw [← pow_two, ← pow_mul, ← pow_add, Nat.mod_add_div]
    have odd : (if n % 2 = 1 then r * a else r) = r * a ^ (n % 2) := by
      rcases Nat.mod_two_eq_zero_or_one n with h | h <;> simp [h]
    rw [powNat, odd]
    split
    · next h => rw [halves, Nat.div_eq_of_lt h, pow_zero, mul_one]
    · next h => rw [ih (n / 2) (by omega), halves, mul_assoc]

/-- The program's integer power is the power of the field. -/
theorem powInt_eq (a : α) (n : Int) : powInt a n = a ^ n := by
  unfold powInt
  rw [powNat_eq, one_mul]
  rcases n with n | n
  · simp
  · rw [if_pos (Int.negSucc_lt_zero n), Int.natAbs_negSucc, zpow_negSucc, one_div]

end Scalar

/-- A constant of exact arithmetic has no second zero. -/
@[simp] theorem Expr.mkNum_eq {α : Type} [ExactScalar α] (v : α) : Expr.mkNum v = Expr.num v := by
  unfold Expr.mkNum
  split
  · next h => rw [Scalar.isZero_iff.mp h]
  · rfl

/-! ## The rational numbers -/

namespace Rational

/-- The functions with rational values; where the value would be irrational it is zero instead. -/
def unary (f : Builtin) (x : ℚ) : ℚ :=
  match f with
  | .abs => |x|
  | .sign => if 0 < x then 1 else if x < 0 then -1 else 0
  | .floor => ⌊x⌋
  | .ceiling => ⌈x⌉
  | .round => round x
  | _ => 0

/-- The functions of two arguments with rational values. -/
def binary (f : Builtin) (x y : ℚ) : ℚ :=
  match f with
  | .min => min x y
  | .max => max x y
  | .pow => if y.den = 1 then x ^ y.num else 0
  | _ => 0

/-- The rational numbers compute exactly. -/
instance : ExactScalar ℚ where
  toField := inferInstance
  ofDecimal digits exponent := digits * 10 ^ exponent
  eq a b := a = b
  lt a b := a < b
  le a b := a ≤ b
  order a b := compare a b
  hash a := mixHash (hash a.num) (hash a.den)
  isIntegral a := a.den = 1
  isFinite _ := true
  toInt a := a.num
  abs a := |a|
  max a b := max a b
  pow a b := if b.den = 1 then a ^ b.num else 0
  unary := unary
  binary := binary
  text a := (toString a).toList
  cast_injective := Nat.cast_injective
  ofDecimal_eq _ _ := rfl
  eq_iff := decide_eq_true_iff
  order_eq_iff := compare_eq_iff_eq
  isIntegral_intCast n := by simp
  intCast_toInt h := Rat.coe_int_num_of_den_eq_one (of_decide_eq_true h)
  pow_intCast a n := by simp

end Rational

end AnalogCircuit
