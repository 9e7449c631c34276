import AnalogCircuit.Proofs.Substitution
/-!
# Arithmetic over parts that have values

That an expression is regular asks for divisors other than zero and for integral powers everywhere in it, also in the
arguments of its functions and in its conditions. Canonical constructors never look there. What they make of sums,
products and powers is right already where the parts that are none of these evaluate to something, by whatever powers
and quotients they do.
-/

namespace AnalogCircuit.Expr

variable {α : Type} [ExactScalar α]

/-! ## Operators -/

namespace Interpretation.Denotes

variable {M : Interpretation α} {a b : Expr α} {x y : α}

theorem neg (ha : M.Denotes a x) : M.Denotes (-a) (-x) := ha.2 ▸ M.neg_denotes ha.1

theorem sub (ha : M.Denotes a x) (hb : M.Denotes b y) : M.Denotes (a - b) (x - y) :=
  ha.2 ▸ hb.2 ▸ M.sub_denotes ha.1 hb.1

theorem mul (ha : M.Denotes a x) (hb : M.Denotes b y) : M.Denotes (a * b) (x * y) :=
  ha.2 ▸ hb.2 ▸ M.mul_denotes ha.1 hb.1

theorem div (ha : M.Denotes a x) (hb : M.Denotes b y) (nonzero : y ≠ 0) : M.Denotes (a / b) (x / y) := by
  obtain ⟨regular, rfl⟩ := hb
  exact ha.2 ▸ M.div_denotes ha.1 regular nonzero

end Interpretation.Denotes

/-! ## Parts that have values -/

/-- Sums, products and integral powers, no divisor being zero, over parts that evaluate to something. -/
inductive Arithmetic (ℓ : Symbol → Option α) : Expr α → Prop
  | num (v : α) : Arithmetic ℓ (num v)
  | atom {e : Expr α} (kind : IsAtom e) (h : HasValue ℓ e) : Arithmetic ℓ e
  | sum {ts : List (Expr α)} (h : ∀ t ∈ ts, Arithmetic ℓ t) : Arithmetic ℓ (sum ts)
  | product {fs : List (Expr α)} (h : ∀ f ∈ fs, Arithmetic ℓ f) : Arithmetic ℓ (product fs)
  | power {b : Expr α} {n : α} (h : Arithmetic ℓ b) (integral : Scalar.isIntegral n = true)
      (nonzero : Scalar.toInt n < 0 → Scalar.isZero (value ℓ b) = false) : Arithmetic ℓ (power b (num n))

variable {ℓ : Symbol → Option α}

theorem Arithmetic.hasValue {e : Expr α} (h : Arithmetic ℓ e) : HasValue ℓ e := by
  unfold HasValue
  induction h with
  | num v => rfl
  | atom _ h => exact h
  | sum _ ih => rw [evaluate_sum ih]; rfl
  | product _ ih => rw [evaluate_product ih]; rfl
  | power _ integral _ ih => rw [evaluate_power ih integral]; rfl

/-- Evaluation, where whatever is no arithmetic is taken as it comes out. -/
def arithmetic (ℓ : Symbol → Option α) : Interpretation α where
  Regular := Arithmetic ℓ
  value := value ℓ
  regular_num := .num
  regular_sum {ts} := by
    refine ⟨fun h => ?_, .sum⟩
    cases h with
    | atom kind _ => exact kind.elim
    | sum h => exact h
  regular_product {fs} := by
    refine ⟨fun h => ?_, .product⟩
    cases h with
    | atom kind _ => exact kind.elim
    | product h => exact h
  regular_power {b e} := by
    constructor
    · intro h
      cases h with
      | atom kind _ => exact kind.elim
      | power h integral nonzero => exact ⟨_, rfl, h, integral, nonzero⟩
    · rintro ⟨n, rfl, h, integral, nonzero⟩
      exact .power h integral nonzero
  value_num := value_num
  value_sum h := value_of_evaluate (evaluate_sum fun t ht => (h t ht).hasValue)
  value_product h := value_of_evaluate (evaluate_product fun f hf => (h f hf).hasValue)
  value_power h integral := value_of_evaluate (evaluate_power h.hasValue integral)

/-- What is denoted is what evaluation yields. -/
theorem evaluate_of_denotes {e : Expr α} {x : α} (h : (arithmetic ℓ).Denotes e x) : evaluate ℓ e = some x := by
  obtain ⟨regular, rfl⟩ := h
  exact regular.hasValue.evaluate_eq

theorem denotes_of_evaluate {e : Expr α} {x : α} (kind : IsAtom e) (h : evaluate ℓ e = some x) :
    (arithmetic ℓ).Denotes e x :=
  ⟨.atom kind (Option.isSome_iff_exists.mpr ⟨x, h⟩), value_of_evaluate h⟩

/-- The application of a function denotes the value of the function, folded or not. -/
theorem mkCall_denotes_of_evaluate {f : Builtin} (function : f ≠ .pow) {args : List (Expr α)} {xs : List α} {v : α}
    (values : evaluateList ℓ args = some xs) (result : Scalar.applyBuiltin f xs = some v) :
    (arithmetic ℓ).Denotes (mkCall f args) v := by
  unfold mkCall
  split
  · exact absurd rfl function
  split
  · next w hw =>
    obtain ⟨vs, constants, folded⟩ := Option.bind_eq_some_iff.mp hw
    have constant : ∀ e ∈ vs.map num, HasValue ℓ e := List.forall_mem_map.mpr fun _ _ => Eq.refl true
    rw [mapM_constant? constants, evaluateList_eq_some constant, List.map_map] at values
    have same : vs = xs := Option.some.inj ((congrArg some (List.map_id vs)).symm.trans values)
    rw [same, result] at folded
    rw [mkNum_eq, ← Option.some.inj folded]
    exact Interpretation.denotes_num v
  · refine denotes_of_evaluate trivial ?_
    rw [evaluate, values]
    exact result

/-- A function of an expression and a number. -/
theorem mkCall_num_denotes {f : Builtin} (function : f ≠ .pow) {e : Expr α} {x c v : α} (h : evaluate ℓ e = some x)
    (result : Scalar.applyBuiltin f [x, c] = some v) : (arithmetic ℓ).Denotes (mkCall f [e, mkNum c]) v := by
  refine mkCall_denotes_of_evaluate function ?_ result
  rw [mkNum_eq, evaluateList, h]
  rfl

end AnalogCircuit.Expr
