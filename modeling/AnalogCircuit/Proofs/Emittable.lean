import AnalogCircuit.Proofs.Closure
import AnalogCircuit.Program.Emission
/-!
# What code can be emitted for

An expression can be computed by a program if it has no unknown function and no operator of time in it, every
call has as many arguments as its function takes, and every symbol has a register. The rewritings of the code
generator, which subtracts terms with a negative coefficient and divides by factors with a negative exponent,
keep to such expressions and to their values.
-/

namespace AnalogCircuit

variable {α : Type}

namespace Expr

mutual

/-- No unknown function and no operator of time occurs, calls have the right number of arguments, and all
symbols are bound. -/
def isEmittable (bound : Symbol → Bool) : Expr α → Bool
  | num _ => true
  | sym s => bound s
  | sum ts | product ts => isEmittableList bound ts
  | power a b | compare _ a b => isEmittable bound a && isEmittable bound b
  | call f args => args.length == f.arity && isEmittableList bound args
  | select c a b => isEmittable bound c && (isEmittable bound a && isEmittable bound b)
  | apply _ _ | derivative _ _ | integral _ _ => false

/-- Code can be emitted for every expression of a list. -/
def isEmittableList (bound : Symbol → Bool) : List (Expr α) → Bool
  | [] => true
  | e :: es => isEmittable bound e && isEmittableList bound es

end

mutual

/-- Every exponent is an integral constant. -/
def hasIntegralPowers [Scalar α] : Expr α → Bool
  | num _ | sym _ => true
  | sum ts | product ts | call _ ts | apply _ ts => hasIntegralPowersList ts
  | power b (num n) => hasIntegralPowers b && Scalar.isIntegral n
  | power _ _ => false
  | compare _ a b => hasIntegralPowers a && hasIntegralPowers b
  | select c a b => hasIntegralPowers c && (hasIntegralPowers a && hasIntegralPowers b)
  | derivative x _ | integral x _ => hasIntegralPowers x

/-- Every exponent in a list of expressions is an integral constant. -/
def hasIntegralPowersList [Scalar α] : List (Expr α) → Bool
  | [] => true
  | e :: es => hasIntegralPowers e && hasIntegralPowersList es

end

variable {bound : Symbol → Bool}

theorem isEmittableList_iff {es : List (Expr α)} :
    isEmittableList bound es = true ↔ ∀ e ∈ es, isEmittable bound e = true := by
  induction es with
  | nil => simp [isEmittableList]
  | cons e es ih => simp [isEmittableList, ih]

theorem hasIntegralPowersList_iff [Scalar α] {es : List (Expr α)} :
    hasIntegralPowersList es = true ↔ ∀ e ∈ es, hasIntegralPowers e = true := by
  induction es with
  | nil => simp [hasIntegralPowersList]
  | cons e es ih => simp [hasIntegralPowersList, ih]

theorem hereditary_isEmittable [Scalar α] (bound : Symbol → Bool) :
    Hereditary False fun e : Expr α => isEmittable bound e = true where
  num v := by simp only [isEmittable]
  sum ts := by simp only [isEmittable, isEmittableList_iff]
  product fs := by simp only [isEmittable, isEmittableList_iff]
  power b e := by simp [isEmittable]

theorem hereditary_hasIntegralPowers [Scalar α] :
    Hereditary True fun e : Expr α => hasIntegralPowers e = true where
  num v := by simp only [hasIntegralPowers]
  sum ts := by simp only [hasIntegralPowers, hasIntegralPowersList_iff]
  product fs := by simp only [hasIntegralPowers, hasIntegralPowersList_iff]
  power b e := by
    cases e with
    | num n => simp [hasIntegralPowers, IsIntegral]
    | _ => simp [hasIntegralPowers, IsIntegral]

section

variable [ExactScalar α] {ℓ : Symbol → Option α}

/-- An expression for which code can be emitted has a value, whatever the values of the bound symbols. -/
theorem hasValue_of_isEmittable (values : ∀ s, bound s = true → (ℓ s).isSome = true) {e : Expr α}
    (h : isEmittable bound e = true) : HasValue ℓ e := by
  unfold HasValue
  induction e with
  | num v => rfl
  | sym s => exact values s h
  | sum ts ih => rw [evaluate_sum fun t ht => ih t ht (isEmittableList_iff.mp h t ht)]; rfl
  | product fs ih => rw [evaluate_product fun f hf => ih f hf (isEmittableList_iff.mp h f hf)]; rfl
  | power a b ha hb =>
    obtain ⟨h₁, h₂⟩ := Bool.and_eq_true_iff.mp h
    rw [evaluate, HasValue.evaluate_eq (ha h₁), HasValue.evaluate_eq (hb h₂)]
    rfl
  | call f args ih =>
    obtain ⟨arity, h⟩ := Bool.and_eq_true_iff.mp h
    rw [evaluate_call fun a ha => ih a ha (isEmittableList_iff.mp h a ha)]
    exact isSome_applyBuiltin (by rw [List.length_map]; exact eq_of_beq arity)
  | compare c a b ha hb =>
    obtain ⟨h₁, h₂⟩ := Bool.and_eq_true_iff.mp h
    rw [evaluate_compare (ha h₁) (hb h₂)]
    rfl
  | select c a b hc ha hb =>
    obtain ⟨h₁, h⟩ := Bool.and_eq_true_iff.mp h
    obtain ⟨h₂, h₃⟩ := Bool.and_eq_true_iff.mp h
    rw [evaluate_select (hc h₁)]
    split
    · exact hb h₃
    · exact ha h₂
  | apply _ _ _ => cases h
  | derivative _ _ _ => cases h
  | integral _ _ _ => cases h

/-! ## Subtraction -/

/-- A property of the parts of a sum or product holds of a term exactly when it holds of what the term
subtracts. -/
theorem Hereditary.subtrahend {strict : Prop} {H : Expr α → Prop} (h : Hereditary strict H)
    {t s : Expr α} (ht : t.subtrahend? = some s) : H s ↔ H t := by
  obtain ⟨c, -, ⟨rfl, rfl⟩ | ⟨fs, rfl, rfl⟩⟩ := exists_of_subtrahend? ht
  · rw [h.scale]
    exact iff_of_true (h.num 1) (h.num _)
  · rw [h.scale, h.ofFactors, h.product, List.forall_mem_cons, and_iff_right (h.num _)]

theorem hasValue_product {fs : List (Expr α)} :
    HasValue ℓ (product fs) ↔ ∀ f ∈ fs, HasValue ℓ f := by
  constructor
  · unfold HasValue
    rw [evaluate, Option.isSome_map]
    intro h
    induction fs with
    | nil => exact fun f hf => absurd hf List.not_mem_nil
    | cons f fs ih =>
      rw [evaluateList] at h
      obtain ⟨vs, hvs⟩ := Option.isSome_iff_exists.mp h
      obtain ⟨x, hx, h⟩ := Option.bind_eq_some_iff.mp hvs
      obtain ⟨xs, hxs, -⟩ := Option.bind_eq_some_iff.mp h
      exact List.forall_mem_cons.mpr ⟨by rw [hx]; rfl, ih (by rw [hxs]; rfl)⟩
  · intro h
    unfold HasValue
    rw [evaluate_product h]
    rfl

theorem hasValue_ofFactors {fs : List (Expr α)} (h : ∀ f ∈ fs, HasValue ℓ f) : HasValue ℓ (ofFactors fs) := by
  unfold ofFactors
  split
  · exact h _ List.mem_cons_self
  · exact hasValue_product.mpr h

theorem value_ofFactors {fs : List (Expr α)} (h : ∀ f ∈ fs, HasValue ℓ f) :
    value ℓ (ofFactors fs) = (fs.map (value ℓ)).prod := by
  unfold ofFactors
  split
  · rw [List.map_singleton, List.prod_singleton]
  · exact value_of_evaluate (evaluate_product h)

theorem value_scale (c : α) {e : Expr α} (h : HasValue ℓ e) :
    value ℓ (scale c e) = c * value ℓ e := by
  unfold scale
  split
  · next hc => rw [Scalar.isOne_iff.mp hc, one_mul]
  have number : HasValue ℓ (num c : Expr α) := rfl
  split
  · rw [mkNum_eq]; rfl
  · next fs =>
    have h := hasValue_product.mp h
    rw [mkNum_eq, value_of_evaluate (evaluate_product (List.forall_mem_cons.mpr ⟨number, h⟩)),
      value_of_evaluate (evaluate_product h)]
    exact List.prod_cons
  · rw [mkNum_eq, value_of_evaluate
      (evaluate_product (List.forall_mem_cons.mpr ⟨number, List.forall_mem_singleton.mpr h⟩))]
    simp

/-- A term with a negative coefficient is the opposite of what it subtracts. -/
theorem value_subtrahend {t s : Expr α} (ht : t.subtrahend? = some s) (h : HasValue ℓ t) :
    value ℓ t = -value ℓ s := by
  obtain ⟨c, -, ⟨rfl, rfl⟩ | ⟨fs, rfl, rfl⟩⟩ := exists_of_subtrahend? ht
  · rw [value_scale (-c) (show HasValue ℓ one from rfl)]
    show c = -(-c * 1)
    ring
  · have factors := hasValue_product.mp h
    have rest : ∀ f ∈ fs, HasValue ℓ f := fun f hf => factors f (List.mem_cons_of_mem _ hf)
    rw [value_scale (-c) (hasValue_ofFactors rest), value_ofFactors rest, value_of_evaluate (evaluate_product factors),
      List.map_cons, List.prod_cons, value_num]
    ring

end

end Expr

/-! ## Division -/

namespace Emit

open Expr

variable [ExactScalar α] {ℓ : Symbol → Option α} {bound : Symbol → Bool}

/-- What a factor divides by has integral powers, symbols and code like the factor. -/
theorem divisor?_iff {strict : Prop} {H : Expr α → Prop} (h : Hereditary strict H) {f d : Expr α}
    (hf : divisor? f = some d) (powers : hasIntegralPowers f = true) : H d ↔ H f := by
  obtain ⟨b, e, rfl, -, rfl⟩ := exists_of_divisor? hf
  obtain ⟨-, integral⟩ := Bool.and_eq_true_iff.mp powers
  have exponent (n : α) (hn : Scalar.isIntegral n = true) : strict → IsIntegral (num n) :=
    fun _ => ⟨n, rfl, hn⟩
  rw [h.power, and_iff_left (⟨h.num e, exponent e integral⟩ : H (num e) ∧ _)]
  split
  · exact Iff.rfl
  · rw [mkNum_eq, h.power]
    exact and_iff_left ⟨h.num (-e), exponent (-e) (Scalar.isIntegral_neg integral)⟩

/-- A factor with a negative exponent is the inverse of what it divides by. -/
theorem value_divisor {f d : Expr α} (hf : divisor? f = some d) (powers : hasIntegralPowers f = true)
    (h : HasValue ℓ d) : value ℓ f = (value ℓ d)⁻¹ := by
  obtain ⟨b, e, rfl, -, rfl⟩ := exists_of_divisor? hf
  obtain ⟨-, integral⟩ := Bool.and_eq_true_iff.mp powers
  obtain ⟨n, rfl⟩ := Scalar.isIntegral_iff.mp integral
  split at h
  · next one =>
    have hn : (n : α) = ((-1 : Int) : α) := by
      rw [Scalar.isOne_iff, neg_eq_iff_eq_neg] at one
      rw [one]
      push_cast
      rfl
    rw [if_pos one, value_of_evaluate (evaluate_power h integral), Scalar.toInt_intCast,
      Int.cast_injective hn, zpow_neg_one]
  · next one =>
    rw [if_neg one]
    rw [mkNum_eq] at *
    have base : HasValue ℓ b := by
      unfold HasValue at h
      rw [evaluate] at h
      obtain ⟨x, hx⟩ := Option.isSome_iff_exists.mp h
      obtain ⟨y, hy, -⟩ := Option.bind_eq_some_iff.mp hx
      rw [HasValue, hy]
      rfl
    have negative : Scalar.isIntegral (-(n : α)) = true := Scalar.isIntegral_neg integral
    rw [value_of_evaluate (evaluate_power base integral),
      value_of_evaluate (evaluate_power base negative), ← Int.cast_neg, Scalar.toInt_intCast,
      Scalar.toInt_intCast, zpow_neg, inv_inv]

/-- What holds of factors exactly if it holds of what they divide by holds of all factors exactly if it holds of
dividends and divisors. -/
theorem forall_dividends_divisors {H : Expr α → Prop} {fs : List (Expr α)}
    (same : ∀ f ∈ fs, ∀ d, divisor? f = some d → (H f ↔ H d)) :
    (∀ f ∈ fs, H f) ↔ (∀ f ∈ dividends fs, H f) ∧ ∀ d ∈ divisors fs, H d := by
  unfold dividends divisors
  constructor
  · intro h
    refine ⟨fun f hf => h f (List.mem_of_mem_filter hf), fun d hd => ?_⟩
    obtain ⟨f, hf, hd⟩ := List.mem_filterMap.mp hd
    exact (same f hf d hd).mp (h f hf)
  · rintro ⟨hs, hd⟩ f hf
    rcases h : divisor? f with _ | d
    · exact hs f (List.mem_filter.mpr ⟨hf, by rw [h]; rfl⟩)
    · exact (same f hf d h).mpr (hd d (List.mem_filterMap.mpr ⟨f, hf, h⟩))

/-- A property of the parts of a product holds of its factors exactly if it holds of its dividends and divisors. -/
theorem forall_factors_iff {strict : Prop} {H : Expr α → Prop} (h : Hereditary strict H) {fs : List (Expr α)}
    (powers : ∀ f ∈ fs, hasIntegralPowers f = true) :
    (∀ f ∈ fs, H f) ↔ (∀ f ∈ dividends fs, H f) ∧ ∀ d ∈ divisors fs, H d :=
  forall_dividends_divisors fun f hf _ hd => (divisor?_iff h hd (powers f hf)).symm

/-- A product is the quotient of its dividends and its divisors. -/
theorem value_quotient {fs : List (Expr α)} (powers : ∀ f ∈ fs, hasIntegralPowers f = true)
    (h : ∀ d ∈ divisors fs, HasValue ℓ d) :
    (fs.map (value ℓ)).prod =
      ((dividends fs).map (value ℓ)).prod / ((divisors fs).map (value ℓ)).prod := by
  unfold dividends divisors at *
  induction fs with
  | nil => simp
  | cons f fs ih =>
    obtain ⟨hf, hfs⟩ := List.forall_mem_cons.mp powers
    cases hd : divisor? f with
    | none =>
      rw [List.filterMap_cons_none hd] at *
      rw [List.filter_cons_of_pos (by rw [hd]; rfl), List.map_cons, List.map_cons, List.prod_cons,
        List.prod_cons, ih hfs h, mul_div_assoc]
    | some d =>
      rw [List.filterMap_cons_some hd] at *
      obtain ⟨hv, h⟩ := List.forall_mem_cons.mp h
      rw [List.filter_cons_of_neg (by rw [hd]; simp), List.map_cons, List.map_cons, List.prod_cons,
        List.prod_cons, ih hfs h, value_divisor hd hf hv, inv_mul_eq_div, div_div, mul_comm]

end Emit

end AnalogCircuit
