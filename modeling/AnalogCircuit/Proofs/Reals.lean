import Mathlib
import AnalogCircuit.Proofs.Dual
import AnalogCircuit.Proofs.Pivoting
/-!
# The real numbers

Circuits over the real numbers: all built-in functions are what they are called. Nothing can be computed over them, and
texts and hashes are those of no number in particular; what is stated of every exact arithmetic is true of them.
-/

namespace AnalogCircuit.Reals

open Classical

/-- The functions of one argument. -/
noncomputable def unary (f : Builtin) (x : ℝ) : ℝ :=
  match f with
  | .abs => |x|
  | .sign => SignType.sign x
  | .sin => Real.sin x
  | .cos => Real.cos x
  | .tan => Real.tan x
  | .sec => 1 / Real.cos x
  | .csc => 1 / Real.sin x
  | .cot => 1 / Real.tan x
  | .asin => Real.arcsin x
  | .acos => Real.arccos x
  | .atan => Real.arctan x
  | .asec => Real.arccos (1 / x)
  | .acsc => Real.arcsin (1 / x)
  | .acot => Real.arctan (1 / x)
  | .sinh => Real.sinh x
  | .cosh => Real.cosh x
  | .tanh => Real.tanh x
  | .sech => 1 / Real.cosh x
  | .csch => 1 / Real.sinh x
  | .coth => 1 / Real.tanh x
  | .asinh => Real.arsinh x
  | .acosh => Real.log (x + √(x ^ 2 - 1))
  | .atanh => Real.log ((1 + x) / (1 - x)) / 2
  | .asech => Real.log ((1 + √(1 - x ^ 2)) / x)
  | .acsch => Real.arsinh (1 / x)
  | .acoth => Real.log ((x + 1) / (x - 1)) / 2
  | .sqrt => √x
  | .exp => Real.exp x
  | .ln => Real.log x
  | .floor => ⌊x⌋
  | .ceiling => ⌈x⌉
  | .round => round x
  | .min | .max | .log | .pow => 0

/-- The functions of two arguments. -/
noncomputable def binary (f : Builtin) (x y : ℝ) : ℝ :=
  match f with
  | .min => min x y
  | .max => max x y
  | .log => Real.logb y x
  | .pow => x ^ y
  | _ => 0

/-- The real numbers compute exactly. -/
noncomputable instance : ExactScalar ℝ where
  toField := inferInstance
  ofDecimal digits exponent := digits * 10 ^ exponent
  eq a b := a = b
  lt a b := a < b
  le a b := a ≤ b
  order a b := compare a b
  hash _ := 0
  isIntegral a := ∃ n : Int, a = n
  isFinite _ := true
  toInt a := ⌊a⌋
  abs a := |a|
  max a b := max a b
  pow a b := a ^ b
  unary := unary
  binary := binary
  text _ := []
  cast_injective := Nat.cast_injective
  ofDecimal_eq _ _ := rfl
  eq_iff := decide_eq_true_iff
  order_eq_iff := compare_eq_iff_eq
  isIntegral_intCast n := decide_eq_true ⟨n, rfl⟩
  intCast_toInt h := by
    obtain ⟨n, rfl⟩ := of_decide_eq_true h
    rw [Int.floor_intCast]
  pow_intCast := Real.rpow_intCast

noncomputable instance : StrictlyOrderedScalar ℝ where
  le_iff := decide_eq_true_iff
  abs_eq _ := rfl
  lt_iff := decide_eq_true_iff

instance : LawfulBuiltins ℝ where
  lt_add_right a b c := by
    show decide (a + c < b + c) = decide (a < b)
    simp
  abs_eq a := (sign_mul_self a).symm
  choose_eq h a b := by
    cases h with
    | min =>
      show min a b = if decide (a < b) = true then a else b
      by_cases h : a < b
      · simp [h, h.le]
      · simp [h, not_lt.mp h]
    | max =>
      show max a b = if decide (b < a) = true then a else b
      by_cases h : b < a
      · simp [h, h.le]
      · simp [h, not_lt.mp h]

end AnalogCircuit.Reals
