import AnalogCircuit.Proofs.Value
/-!
# Interpretations of expressions

Canonical constructors compute with sums, products and integral powers and move all other nodes as they are. So that
they keep values does not depend on what symbols, functions, comparisons and choices are taken to be: it holds of every
way to interpret expressions that reads the arithmetic in them as arithmetic. Evaluation under a valuation is one.
Sums alone compute for even more: for whatever is linear in terms and their leading coefficients.
-/

namespace AnalogCircuit.Expr

/-- A way to tell which expressions are regular and what their values are, in which the values of terms add up and a
leading coefficient multiplies. -/
structure LinearForm (α : Type) [ExactScalar α] where
  Regular : Expr α → Prop
  value : Expr α → α
  regular_num (v : α) : Regular (num v)
  regular_sum {ts : List (Expr α)} : Regular (sum ts) ↔ ∀ t ∈ ts, Regular t
  regular_lone {f : Expr α} : Regular (product [f]) ↔ Regular f
  regular_coefficient {c : α} {fs : List (Expr α)} : Regular (product (num c :: fs)) ↔ Regular (product fs)
  value_num (v : α) : value (num v) = v * value one
  value_sum {ts : List (Expr α)} : (∀ t ∈ ts, Regular t) → value (sum ts) = (ts.map value).sum
  value_lone {f : Expr α} : Regular f → value (product [f]) = value f
  value_coefficient {c : α} {fs : List (Expr α)} : Regular (product fs) →
    value (product (num c :: fs)) = c * value (product fs)

/-- The expression is regular and has the value. -/
def LinearForm.Denotes {α : Type} [ExactScalar α] (L : LinearForm α) (e : Expr α) (v : α) : Prop :=
  L.Regular e ∧ L.value e = v

/-- A way to tell which expressions are regular and what their values are, of which sums, products and integral powers
are as they should be. -/
structure Interpretation (α : Type) [ExactScalar α] where
  Regular : Expr α → Prop
  value : Expr α → α
  regular_num (v : α) : Regular (num v)
  regular_sum {ts : List (Expr α)} : Regular (sum ts) ↔ ∀ t ∈ ts, Regular t
  regular_product {fs : List (Expr α)} : Regular (product fs) ↔ ∀ f ∈ fs, Regular f
  /-- The exponent is an integer, and a base is zero only below a positive one. -/
  regular_power {b e : Expr α} : Regular (power b e) ↔ ∃ n, e = num n ∧ Regular b ∧
    Scalar.isIntegral n = true ∧ (Scalar.toInt n < 0 → Scalar.isZero (value b) = false)
  value_num (v : α) : value (num v) = v
  value_sum {ts : List (Expr α)} : (∀ t ∈ ts, Regular t) → value (sum ts) = (ts.map value).sum
  value_product {fs : List (Expr α)} : (∀ f ∈ fs, Regular f) → value (product fs) = (fs.map value).prod
  value_power {b : Expr α} {n : α} : Regular b → Scalar.isIntegral n = true →
    value (power b (num n)) = value b ^ Scalar.toInt n

attribute [simp] Interpretation.regular_num Interpretation.value_num

variable {α : Type} [ExactScalar α]

/-- Evaluation with the values of symbols. -/
def evaluation (ℓ : Symbol → Option α) : Interpretation α where
  Regular := Regular ℓ
  value := value ℓ
  regular_num := regular_num
  regular_sum := regular_sum
  regular_product := regular_product
  regular_power := regular_power
  value_num := value_num
  value_sum := value_sum
  value_product := value_product
  value_power := value_power

/-- The expression is regular and has the value. -/
def Denotes (ℓ : Symbol → Option α) (e : Expr α) (v : α) : Prop := Regular ℓ e ∧ value ℓ e = v

theorem Regular.denotes {ℓ : Symbol → Option α} {e : Expr α} (h : Regular ℓ e) : Denotes ℓ e (value ℓ e) := ⟨h, rfl⟩

namespace Interpretation

variable {M : Interpretation α}

/-- The expression is regular and has the value. -/
def Denotes (M : Interpretation α) (e : Expr α) (v : α) : Prop := M.Regular e ∧ M.value e = v

theorem Regular.denotes {e : Expr α} (h : M.Regular e) : M.Denotes e (M.value e) := ⟨h, rfl⟩

theorem denotes_num (v : α) : M.Denotes (num v) v := ⟨M.regular_num v, M.value_num v⟩

theorem denotes_zero : M.Denotes zero 0 := denotes_num 0

theorem denotes_one : M.Denotes one 1 := denotes_num 1

theorem denotes_sum {ts : List (Expr α)} (h : ∀ t ∈ ts, M.Regular t) : M.Denotes (sum ts) (ts.map M.value).sum :=
  ⟨M.regular_sum.mpr h, M.value_sum h⟩

theorem denotes_product {fs : List (Expr α)} (h : ∀ f ∈ fs, M.Regular f) :
    M.Denotes (product fs) (fs.map M.value).prod := ⟨M.regular_product.mpr h, M.value_product h⟩

/-- Every interpretation is linear. -/
def linearForm (M : Interpretation α) : LinearForm α where
  Regular := M.Regular
  value := M.value
  regular_num := M.regular_num
  regular_sum := M.regular_sum
  regular_lone {_} := by rw [M.regular_product, List.forall_mem_singleton]
  regular_coefficient {_ _} := by
    rw [M.regular_product, M.regular_product, List.forall_mem_cons, and_iff_right (M.regular_num _)]
  value_num v := by rw [denotes_one.2, M.value_num, mul_one]
  value_sum := M.value_sum
  value_lone h := by rw [M.value_product (List.forall_mem_singleton.mpr h), List.map_singleton, List.prod_singleton]
  value_coefficient h := by
    have h := M.regular_product.mp h
    rw [M.value_product (List.forall_mem_cons.mpr ⟨M.regular_num _, h⟩), M.value_product h, List.map_cons,
      List.prod_cons, M.value_num]

end Interpretation

theorem denotes_num {ℓ : Symbol → Option α} (v : α) : Denotes ℓ (num v) v := (evaluation ℓ).denotes_num v

theorem denotes_zero {ℓ : Symbol → Option α} : Denotes ℓ (zero : Expr α) 0 := denotes_num 0

theorem denotes_one {ℓ : Symbol → Option α} : Denotes ℓ (one : Expr α) 1 := denotes_num 1

end AnalogCircuit.Expr
