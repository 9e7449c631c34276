import AnalogCircuit.Proofs.Reciprocal
import AnalogCircuit.Expr.Derivative
/-!
# Derivatives of built-in functions

The derivative of a function of one argument is given as an expression in that argument. It is the same thing to read
it at a number and at an expression with that value: whatever is folded, merged or distributed on the way, a derivative
that has a value at the number has the same value at the expression. Divisors matter most here, since at the expression
they must not vanish if at the number they do not.

The derivatives of the inverse sine and cosine and of their hyperbolic counterparts are powers that are not integral.
They have no value in exact arithmetic.
-/

namespace AnalogCircuit

/-- The slope of a function of one argument at a number, if its derivative has a value there. -/
def Builtin.slope? {α : Type} [ExactScalar α] (f : Builtin) (a : α) : Option α :=
  (f.derivative? (Expr.named "x")).bind (Expr.defined? fun _ => some a)

namespace Expr

variable {α : Type} [ExactScalar α]

/-! ## Sums of a constant and a term -/

/-- A constant and a term make up a sum. -/
theorem isBase_mkSum {es : List (Expr α)} (t : Expr α) (c : α)
    (varying : (termsList es).filter (·.constant?.isNone) = [t])
    (constants : (termsList es).filterMap constant? = [c]) (nonzero : c ≠ 0)
    (coefficient : t.splitCoefficient.1 ≠ 0) : IsBase (mkSum es) := by
  have several : (sort (summands es)).length = 2 := by
    have perm : (sort (summands es)).Perm (summands es) := sortBy_perm _ _
    have entry : collectTerms (termsList es) = [(t.splitCoefficient.2, t.splitCoefficient.1 + 0)] := by
      rw [collectTerms_eq, varying]
      rfl
    have kept : Scalar.isZero t.splitCoefficient.1 = false := Scalar.isZero_eq_false_iff.mpr coefficient
    rw [perm.length_eq]
    simp [summands, entry, constants, nonzero, kept]
  rw [mkSum_eq, ofTerms_of_several several.ge]
  exact isBase_sum _

/-- The square of an expression, as derivatives write it. -/
def square (e : Expr α) : Expr α := mkPow e (mkNum (Scalar.ofDecimal 20 (-1)))

theorem isIntegral_two : Scalar.isIntegral (2 : α) = true := Scalar.isIntegral_iff.mpr ⟨2, by simp⟩

theorem square_eq (e : Expr α) : square e = mkPow e (num 2) := by
  have two : (Scalar.ofDecimal 20 (-1) : α) = 2 := by
    refine (ExactScalar.ofDecimal_eq 20 (-1)).trans ?_
    norm_num
  rw [square, mkNum_eq, two]

theorem square_sym (s : Symbol) : square (sym s) = (power (sym s) (num 2) : Expr α) := by
  have other : (2 : α) ≠ 1 := by
    intro same
    have : (1 : α) = 0 := by linear_combination same
    exact one_ne_zero this
  rw [square_eq, (isBase_sym s).mkPow_eq_power isIntegral_two two_ne_zero other]

theorem isSteady_square_sym (s : Symbol) : IsSteady (power (sym s) (num 2) : Expr α) := by
  show mkPow (sym s) (mkSum [num 2]) = _
  rw [mkSum_num, ← square_eq, square_sym]

theorem neg_square_sym (s : Symbol) :
    -square (sym s) = (product [num (-1), power (sym s) (num 2)] : Expr α) := by
  rw [neg_eq_mkProduct, square_sym, mkProduct_num_factor _ (isFactor_power _ _) (isSteady_square_sym s),
    if_neg (by simp), if_neg (by simpa using minus_one_ne_one)]

theorem isBase_one_add_square (s : Symbol) : IsBase (one + square (sym s) : Expr α) := by
  rw [square_sym]
  exact isBase_mkSum (power (sym s) (num 2)) 1 rfl rfl one_ne_zero one_ne_zero

theorem isBase_square_add_one (s : Symbol) : IsBase (square (sym s) + one : Expr α) := by
  rw [square_sym]
  exact isBase_mkSum (power (sym s) (num 2)) 1 rfl rfl one_ne_zero one_ne_zero

theorem isBase_one_sub_square (s : Symbol) : IsBase (one - square (sym s) : Expr α) := by
  show IsBase (mkSum [one, -square (sym s)])
  rw [neg_square_sym]
  exact isBase_mkSum (product [num (-1), power (sym s) (num 2)]) 1 rfl rfl one_ne_zero minus_one_ne_zero

theorem isBase_square_sub_one (s : Symbol) : IsBase (square (sym s) - one : Expr α) := by
  show IsBase (mkSum [square (sym s), -one])
  rw [square_sym, neg_eq_mkProduct, one, mkProduct_nums, mul_one]
  exact isBase_mkSum (power (sym s) (num 2)) (-1) rfl rfl minus_one_ne_zero one_ne_zero

/-- A function of one argument is not folded unless the argument is constant. -/
theorem mkCall_eq_call {f : Builtin} {p : Expr α} (variable' : p.constant? = none) : mkCall f [p] = call f [p] := by
  have unfolded : ([p].mapM constant?).bind (Scalar.applyBuiltin f) = none := by
    rw [List.mapM_cons, variable']
    rfl
  unfold mkCall
  split
  · next same => cases same
  · rw [unfolded]

/-! ## The same value in two places -/

/-- Two expressions have the same value, each under its valuation. -/
structure Coincide (ℓ ℓ' : Symbol → Option α) (p q : Expr α) : Prop where
  first : Regular ℓ p
  second : Regular ℓ' q
  value_eq : value ℓ p = value ℓ' q

namespace Coincide

variable {ℓ ℓ' : Symbol → Option α} {p q p' q' : Expr α}

theorem transfer (h : Coincide ℓ ℓ' p q) {v : α} (hp : Yields ℓ p v) : Yields ℓ' q v :=
  yields_iff.mpr ⟨h.second, h.value_eq ▸ hp.value_eq⟩

theorem num (c : α) : Coincide ℓ ℓ' (num c) (num c) := ⟨regular_num c, regular_num c, rfl⟩

theorem neg (h : Coincide ℓ ℓ' p q) : Coincide ℓ ℓ' (-p) (-q) where
  first := (neg_denotes h.first).1
  second := (neg_denotes h.second).1
  value_eq := by rw [(neg_denotes h.first).2, (neg_denotes h.second).2, h.value_eq]

theorem add (h : Coincide ℓ ℓ' p q) (h' : Coincide ℓ ℓ' p' q') : Coincide ℓ ℓ' (p + p') (q + q') where
  first := (add_denotes h.first h'.first).1
  second := (add_denotes h.second h'.second).1
  value_eq := by
    rw [(add_denotes h.first h'.first).2, (add_denotes h.second h'.second).2, h.value_eq, h'.value_eq]

theorem sub (h : Coincide ℓ ℓ' p q) (h' : Coincide ℓ ℓ' p' q') : Coincide ℓ ℓ' (p - p') (q - q') where
  first := (sub_denotes h.first h'.first).1
  second := (sub_denotes h.second h'.second).1
  value_eq := by
    rw [(sub_denotes h.first h'.first).2, (sub_denotes h.second h'.second).2, h.value_eq, h'.value_eq]

theorem mul (h : Coincide ℓ ℓ' p q) (h' : Coincide ℓ ℓ' p' q') : Coincide ℓ ℓ' (p * p') (q * q') where
  first := (mul_denotes h.first h'.first).1
  second := (mul_denotes h.second h'.second).1
  value_eq := by
    rw [(mul_denotes h.first h'.first).2, (mul_denotes h.second h'.second).2, h.value_eq, h'.value_eq]

theorem div (h : Coincide ℓ ℓ' p q) (h' : Coincide ℓ ℓ' p' q') (nonzero : value ℓ p' ≠ 0) :
    Coincide ℓ ℓ' (p / p') (q / q') where
  first := (div_denotes h.first h'.first nonzero).1
  second := (div_denotes h.second h'.second (h'.value_eq ▸ nonzero)).1
  value_eq := by
    rw [(div_denotes h.first h'.first nonzero).2, (div_denotes h.second h'.second (h'.value_eq ▸ nonzero)).2,
      h.value_eq, h'.value_eq]

theorem square (h : Coincide ℓ ℓ' p q) : Coincide ℓ ℓ' (square p) (square q) := by
  have power {ℓ : Symbol → Option α} {e : Expr α} (he : Regular ℓ e) :
      Denotes ℓ (Expr.square e) (value ℓ e ^ (2 : Int)) := by
    have two : ((2 : Int) : α) = 2 := by norm_num
    have pow := mkPow_yields (n := 2) (yields_iff.mpr he.denotes) (fun negative => absurd negative (by decide))
    rw [two, mkNum_eq] at pow
    rw [square_eq]
    exact yields_iff.mp pow
  refine ⟨(power h.first).1, (power h.second).1, ?_⟩
  rw [(power h.first).2, (power h.second).2, h.value_eq]

theorem call (h : Coincide ℓ ℓ' p q) {f : Builtin} (arity : f.arity = 1) :
    Coincide ℓ ℓ' (mkCall f [p]) (mkCall f [q]) := by
  have unary {ℓ : Symbol → Option α} {e : Expr α} (he : Regular ℓ e) :
      Denotes ℓ (mkCall f [e]) (Scalar.unary f (value ℓ e)) := by
    have function : f ≠ .pow := fun same => by rw [same] at arity; cases arity
    refine yields_iff.mp (mkCall_yields function (.cons (yields_iff.mpr he.denotes) .nil) ?_)
    exact if_pos arity
  refine ⟨(unary h.first).1, (unary h.second).1, ?_⟩
  rw [(unary h.first).2, (unary h.second).2, h.value_eq]

/-! ## Quotients -/

/-- If a quotient by a base has a value at the first place, it has the same value at the second. -/
theorem quotient (h : Coincide ℓ ℓ' p q) (base : IsBase p) {c : α} (nonzero : c ≠ 0)
    (regular : Regular ℓ (Expr.num c / p) ∨ Regular ℓ (-(Expr.num c / p))) :
    Coincide ℓ ℓ' (Expr.num c / p) (Expr.num c / q) := by
  refine (num c).div h ?_
  have bases : ∀ b ∈ [p], IsBase b := List.forall_mem_singleton.mpr base
  have lone := base.mkProduct_eq
  rw [← lone] at regular ⊢
  exact value_ne_zero_of_quotient bases (List.nodup_singleton p) (List.cons_ne_nil p []) nonzero regular

/-- The same for a quotient by two different bases. -/
theorem quotient_mul (h : Coincide ℓ ℓ' p q) (h' : Coincide ℓ ℓ' p' q') (base : IsBase p) (base' : IsBase p')
    (different : p ≠ p') {c : α} (nonzero : c ≠ 0)
    (regular : Regular ℓ (Expr.num c / (p * p')) ∨ Regular ℓ (-(Expr.num c / (p * p')))) :
    Coincide ℓ ℓ' (Expr.num c / (p * p')) (Expr.num c / (q * q')) := by
  refine (num c).div (h.mul h') ?_
  have bases : ∀ b ∈ [p, p'], IsBase b := List.forall_mem_cons.mpr ⟨base, List.forall_mem_singleton.mpr base'⟩
  have distinct : [p, p'].Nodup := by simpa using different
  exact value_ne_zero_of_quotient bases distinct (List.cons_ne_nil p _) nonzero regular

end Coincide

/-! ## Powers that are not integral -/

/-- The inverse of a square root, as derivatives write it. -/
def inverseRoot (e : Expr α) : Expr α := mkPow e (mkNum (-Scalar.ofDecimal 5 (-1)))

theorem isIntegral_minus_half : Scalar.isIntegral (-Scalar.ofDecimal 5 (-1) : α) = false := by
  rw [← Bool.not_eq_true]
  intro integral
  obtain ⟨n, hn⟩ := Scalar.isIntegral_iff.mp integral
  have half : (Scalar.ofDecimal 5 (-1) : α) = 5 * 10 ^ (-1 : Int) := ExactScalar.ofDecimal_eq 5 (-1)
  have double : ((2 * n : Int) : α) = ((-1 : Int) : α) := by
    rw [Int.cast_mul, ← hn, half]
    norm_num
  have double := Int.cast_injective double
  omega

variable {ℓ : Symbol → Option α}

theorem inverseRoot_eq_power {e : Expr α} (base : IsBase e) :
    inverseRoot e = power e (num (-Scalar.ofDecimal 5 (-1))) := by
  have integral := isIntegral_minus_half (α := α)
  have zero : Scalar.isZero (-Scalar.ofDecimal 5 (-1) : α) = false := by
    rw [Scalar.isZero_eq_false_iff]
    intro zero
    rw [zero, Scalar.isIntegral_zero] at integral
    cases integral
  have one : Scalar.isOne (-Scalar.ofDecimal 5 (-1) : α) = false := by
    rw [← Bool.not_eq_true, Scalar.isOne_iff]
    intro one
    rw [one, Scalar.isIntegral_one] at integral
    cases integral
  rw [inverseRoot, mkNum_eq, mkPow_eq]
  cases e with
  | num v => cases base.nonconstant
  | product fs => exact absurd rfl (base.unnested fs)
  | _ => simp only [integral, zero, one, Bool.false_eq_true, if_false]

theorem not_regular_inverseRoot {e : Expr α} (base : IsBase e) :
    ¬ (Regular ℓ (inverseRoot e) ∨ Regular ℓ (-inverseRoot e)) := by
  have same := inverseRoot_eq_power base
  have steady : IsSteady (inverseRoot e) := by
    unfold IsSteady
    rw [same]
    show mkPow e (mkSum [num _]) = _
    rw [mkSum_num, ← same, inverseRoot, mkNum_eq]
  have positive : ¬ Regular ℓ (inverseRoot e) := by
    rw [same]
    intro regular
    obtain ⟨_, ⟨⟩, -, integral, -⟩ := regular_power.mp regular
    rw [isIntegral_minus_half] at integral
    cases integral
  rintro (regular | regular)
  · exact positive regular
  · have factor : IsFactor (inverseRoot e) := same ▸ isFactor_power _ _
    rw [neg_eq_mkProduct, mkProduct_num_factor _ factor steady, if_neg (by simp),
      if_neg (by simpa using minus_one_ne_one)] at regular
    exact positive (regular_product.mp regular _ (by simp))

/-! ## The derivatives -/

/-- Where the derivative of a function has a value at a number, it has that value at every expression that has the
number for its value. -/
theorem derivative?_yields {f : Builtin} {e : Expr α} {a d : α} (he : Yields ℓ e a) (h : f.slope? a = some d) :
    ∃ outer, f.derivative? e = some outer ∧ Yields ℓ outer d := by
  obtain ⟨inner, hi, hd⟩ := Option.bind_eq_some_iff.mp h
  have hd := defined?_eq_some_iff.mp hd
  have regular := hd.regular
  suffices same : ∃ outer, f.derivative? e = some outer ∧ Coincide (fun _ => some a) ℓ inner outer by
    obtain ⟨outer, ho, same⟩ := same
    exact ⟨outer, ho, same.transfer hd⟩
  have x : Coincide (fun _ => some a) ℓ (named "x") e := by
    refine ⟨?_, he.regular, ?_⟩
    · show Regular _ (sym _)
      rw [Regular]
      rfl
    · exact he.value_eq.symm
  have one : Coincide (fun _ => some a) ℓ (one : Expr α) one := .num 1
  have root {p q : Expr α} (h : Coincide (fun _ => some a) ℓ p q) :
      Coincide (fun _ => some a) ℓ (mkSqrt p) (mkSqrt q) := h.call rfl
  -- the divisors, as they are at the number
  have atom : IsBase (named "x" : Expr α) := isBase_sym _
  have plus : IsBase (Expr.one + square (named "x") : Expr α) := isBase_one_add_square _
  have minus : IsBase (Expr.one - square (named "x") : Expr α) := isBase_one_sub_square _
  have excess : IsBase (square (named "x") - Expr.one : Expr α) := isBase_square_sub_one _
  have function {g : Builtin} {p : Expr α} (base : IsBase p) : IsBase (mkCall g [p]) := by
    rw [mkCall_eq_call base.nonconstant]
    exact isBase_call g [p]
  have apart {p : Expr α} (base : IsBase p) : mkCall .abs [named "x"] ≠ mkSqrt p := by
    rw [mkSqrt, mkCall_eq_call base.nonconstant, mkCall_eq_call atom.nonconstant]
    simp
  cases f with
  | min | max | log | pow => cases hi
  | sign | floor | ceiling | round => cases hi; exact ⟨_, rfl, .num 0⟩
  | abs | sin | sinh | cosh | exp => cases hi; exact ⟨_, rfl, x.call rfl⟩
  | cos => cases hi; exact ⟨_, rfl, (x.call rfl).neg⟩
  | tan => cases hi; exact ⟨_, rfl, one.add (x.call rfl).square⟩
  | tanh | coth => cases hi; exact ⟨_, rfl, one.sub (x.call rfl).square⟩
  | sec => cases hi; exact ⟨_, rfl, (x.call rfl).mul (x.call rfl)⟩
  | csc | sech | csch => cases hi; exact ⟨_, rfl, ((x.call rfl).mul (x.call rfl)).neg⟩
  | cot => cases hi; exact ⟨_, rfl, (x.call rfl).square.neg⟩
  | asin => cases hi; exact absurd (.inl regular) (not_regular_inverseRoot minus)
  | acos => cases hi; exact absurd (.inr regular) (not_regular_inverseRoot minus)
  | asinh => cases hi; exact absurd (.inl regular) (not_regular_inverseRoot (isBase_square_add_one _))
  | acosh => cases hi; exact absurd (.inl regular) (not_regular_inverseRoot excess)
  | ln => cases hi; exact ⟨_, rfl, x.quotient atom one_ne_zero (.inl regular)⟩
  | atan => cases hi; exact ⟨_, rfl, (one.add x.square).quotient plus one_ne_zero (.inl regular)⟩
  | acot => cases hi; exact ⟨_, rfl, ((one.add x.square).quotient plus one_ne_zero (.inr regular)).neg⟩
  | atanh | acoth => cases hi; exact ⟨_, rfl, (one.sub x.square).quotient minus one_ne_zero (.inl regular)⟩
  | asec =>
    cases hi
    have factor := x.call (f := .abs) rfl
    exact ⟨_, rfl, factor.quotient_mul (root (x.square.sub one)) (function atom) (function excess) (apart excess)
      one_ne_zero (.inl regular)⟩
  | acsc =>
    cases hi
    have factor := x.call (f := .abs) rfl
    exact ⟨_, rfl, (factor.quotient_mul (root (x.square.sub one)) (function atom) (function excess) (apart excess)
      one_ne_zero (.inr regular)).neg⟩
  | asech =>
    cases hi
    have different : (named "x" : Expr α) ≠ mkSqrt (Expr.one - square (named "x")) := by
      rw [mkSqrt, mkCall_eq_call minus.nonconstant]
      simp [named]
    exact ⟨_, rfl, (x.quotient_mul (root (one.sub x.square)) atom (function minus) different one_ne_zero
      (.inr regular)).neg⟩
  | acsch =>
    cases hi
    have factor := x.call (f := .abs) rfl
    exact ⟨_, rfl, (factor.quotient_mul (root (one.add x.square)) (function atom) (function plus) (apart plus)
      one_ne_zero (.inr regular)).neg⟩
  | sqrt =>
    cases hi
    have half : (Scalar.ofDecimal 5 (-1) : α) ≠ 0 := by
      intro zero
      have integral := isIntegral_minus_half (α := α)
      rw [zero, neg_zero, Scalar.isIntegral_zero] at integral
      cases integral
    have regular : Regular _ (mkNum (Scalar.ofDecimal 5 (-1)) / mkCall .sqrt [named "x"]) := regular
    have same : Coincide (fun _ => some a) ℓ (mkNum (Scalar.ofDecimal 5 (-1)) / mkCall .sqrt [named "x"])
        (mkNum (Scalar.ofDecimal 5 (-1)) / mkCall .sqrt [e]) := by
      rw [mkNum_eq] at regular ⊢
      exact (x.call rfl).quotient (function atom) half (.inl regular)
    exact ⟨_, rfl, same⟩

end Expr

end AnalogCircuit
