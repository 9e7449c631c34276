import Mathlib.Algebra.DualNumber
import AnalogCircuit.Proofs.BuiltinDerivative
import AnalogCircuit.Proofs.Steps
/-!
# Derivatives and dual numbers

An expression is evaluated over dual numbers `a + b*ε`, in which the square of `ε` is zero: the symbol by which is
differentiated has `ε` added to its value, sums, products and powers are those of the dual numbers, a function of one
argument goes on with its slope, comparisons look at the real parts, and choices, minima and maxima follow the operand
they choose. Wherever this is defined, the symbolic derivative is defined too, and its value is the coefficient of `ε`.

The induction goes over the tree of the expression, with one lemma for each kind of node: what is true of the parts and
of their derivatives is true of the node and of its derivative, whatever the constructors merge, cancel or distribute
in it.
-/

namespace AnalogCircuit

/-- Minimum and maximum choose their first argument if it is strictly smaller or larger, else the second. -/
class LawfulExtrema (α : Type) [ExactScalar α] : Prop where
  choose_eq {f : Builtin} {c : Comparison} (h : f.Chooses c) (a b : α) : Scalar.binary f a b = c.choose a b

instance {α : Type} [ExactScalar α] [LawfulBuiltins α] : LawfulExtrema α := ⟨LawfulBuiltins.choose_eq⟩

open TrivSqZeroExt (inl inr fst snd)

variable {α : Type} [ExactScalar α]

/-! ## Arithmetic of dual numbers -/

namespace Dual

/-- An integral power; negative powers are those of the inverse. -/
def raise (d : DualNumber α) : Int → DualNumber α
  | .ofNat k => d ^ k
  | .negSucc k => d⁻¹ ^ (k + 1)

theorem fst_raise (d : DualNumber α) (n : Int) : (raise d n).fst = d.fst ^ n := by
  cases n with
  | ofNat k => rw [raise, TrivSqZeroExt.fst_pow]; exact (zpow_natCast _ _).symm
  | negSucc k => rw [raise, TrivSqZeroExt.fst_pow, TrivSqZeroExt.fst_inv, zpow_negSucc, inv_pow]

theorem snd_raise (d : DualNumber α) (n : Int) : (raise d n).snd = n * d.fst ^ (n - 1) * d.snd := by
  cases n with
  | ofNat k =>
    rw [raise, TrivSqZeroExt.snd_pow]
    cases k with
    | zero => simp
    | succ k => simp [nsmul_eq_mul, mul_assoc]
  | negSucc k =>
    have exponent : Int.negSucc k - 1 = Int.negSucc (k + 1) := rfl
    rw [raise, TrivSqZeroExt.snd_pow, TrivSqZeroExt.fst_inv, TrivSqZeroExt.snd_inv, exponent, zpow_negSucc, ← inv_pow]
    simp [nsmul_eq_mul]
    ring

theorem fst_sum (ds : List (DualNumber α)) : ds.sum.fst = (ds.map fst).sum := by
  induction ds with
  | nil => rfl
  | cons d ds ih => rw [List.sum_cons, TrivSqZeroExt.fst_add, ih, List.map_cons, List.sum_cons]

theorem snd_sum (ds : List (DualNumber α)) : ds.sum.snd = (ds.map snd).sum := by
  induction ds with
  | nil => rfl
  | cons d ds ih => rw [List.sum_cons, TrivSqZeroExt.snd_add, ih, List.map_cons, List.sum_cons]

theorem snd_prod (ds : List (DualNumber α)) : ds.prod.snd = HasSlope.leibniz fst snd ds := by
  induction ds with
  | nil => rfl
  | cons d ds ih =>
    rw [List.prod_cons, DualNumber.snd_mul, TrivSqZeroExt.fst_list_prod, ih, HasSlope.leibniz_cons]
    ring

end Dual

namespace Builtin

/-- What a function makes of dual numbers. -/
def applyDual? (f : Builtin) : List (DualNumber α) → Option (DualNumber α)
  | [d] => (f.slope? d.fst).map fun s => inl (Scalar.unary f d.fst) + inr (s * d.snd)
  | [d, e] =>
    match f with
    | .min => some (if Comparison.lt.holds d.fst e.fst then d else e)
    | .max => some (if Comparison.gt.holds d.fst e.fst then d else e)
    | _ => none
  | _ => none

end Builtin

namespace Expr

mutual

/-- The value of an expression over dual numbers, if `x` is taken to be `x + ε` and all other symbols are constant. -/
def evaluateDual (ℓ : Symbol → Option α) (x : Symbol) : Expr α → Option (DualNumber α)
  | num v => some (inl v)
  | sym s => (ℓ s).map fun v => inl v + if s = x then DualNumber.eps else 0
  | sum ts => (evaluateDualList ℓ x ts).map List.sum
  | product fs => (evaluateDualList ℓ x fs).map List.prod
  | power b (num n) => do
    let d ← evaluateDual ℓ x b
    if Scalar.isIntegral n ∧ (Scalar.toInt n < 0 → Scalar.isZero d.fst = false) then
      some (Dual.raise d (Scalar.toInt n))
    else none
  | call f args => (evaluateDualList ℓ x args).bind f.applyDual?
  | compare c a b => do
    let d ← evaluateDual ℓ x a
    let e ← evaluateDual ℓ x b
    some (inl (Scalar.ofBool (c.holds d.fst e.fst)))
  | select c a b => do
    let d ← evaluateDual ℓ x c
    if Scalar.isZero d.fst then evaluateDual ℓ x b else evaluateDual ℓ x a
  | power _ _ | apply _ _ | derivative _ _ | integral _ _ => none

/-- The values of several expressions, if all have one. -/
def evaluateDualList (ℓ : Symbol → Option α) (x : Symbol) : List (Expr α) → Option (List (DualNumber α))
  | [] => some []
  | e :: es => do
    let d ← evaluateDual ℓ x e
    let ds ← evaluateDualList ℓ x es
    some (d :: ds)

end

theorem evaluateDualList_eq_some {ℓ : Symbol → Option α} {x : Symbol} {es : List (Expr α)} {ds : List (DualNumber α)}
    (h : evaluateDualList ℓ x es = some ds) : List.Forall₂ (fun e d => evaluateDual ℓ x e = some d) es ds := by
  induction es generalizing ds with
  | nil =>
    rw [evaluateDualList] at h
    cases h
    exact .nil
  | cons e es ih =>
    rw [evaluateDualList] at h
    obtain ⟨d, first, h⟩ := Option.bind_eq_some_iff.mp h
    obtain ⟨ds, rest, h⟩ := Option.bind_eq_some_iff.mp h
    cases h
    exact .cons first (ih rest)

/-! ## One node -/

/-- The expression yields the real part and its derivative the coefficient of `ε`. -/
structure HasDual (ℓ : Symbol → Option α) (x : Symbol) (again? : Option (Expr α → Expr α)) (e : Expr α)
    (d : DualNumber α) : Prop where
  real : Yields ℓ e d.fst
  slope : Yields ℓ (diffStep x again? e) d.snd

namespace HasDual

variable {ℓ : Symbol → Option α} {x : Symbol} {again? : Option (Expr α → Expr α)} {es : List (Expr α)}
  {ds : List (DualNumber α)} {a b c : Expr α} {d d' : DualNumber α}

/-- Where the symbol does not occur, there is no `ε`. -/
theorem snd_eq_zero (h : HasDual ℓ x again? a d) (absent : a.contains x = false) : d.snd = 0 := by
  have slope := h.slope
  rw [diffStep_eq_zero absent] at slope
  exact slope.value_eq.symm

theorem yields_zero : Yields ℓ (zero : Expr α) 0 := yields_iff.mpr denotes_zero

theorem regular (h : List.Forall₂ (HasDual ℓ x again?) es ds) :
    ∀ e ∈ es, Regular ℓ e ∧ Regular ℓ (diffStep x again? e) := by
  induction h with
  | nil => exact fun _ he => absurd he List.not_mem_nil
  | cons first _ ih => exact List.forall_mem_cons.mpr ⟨⟨first.real.regular, first.slope.regular⟩, ih⟩

theorem map_value (h : List.Forall₂ (HasDual ℓ x again?) es ds) : es.map (value ℓ) = ds.map fst := by
  induction h with
  | nil => rfl
  | cons first _ ih => rw [List.map_cons, List.map_cons, first.real.value_eq, ih]

theorem map_slope (h : List.Forall₂ (HasDual ℓ x again?) es ds) :
    es.map (fun e => value ℓ (diffStep x again? e)) = ds.map snd := by
  induction h with
  | nil => rfl
  | cons first _ ih => rw [List.map_cons, List.map_cons, first.slope.value_eq, ih]

theorem leibniz (h : List.Forall₂ (HasDual ℓ x again?) es ds) :
    HasSlope.leibniz (value ℓ) (fun e => value ℓ (diffStep x again? e)) es = HasSlope.leibniz fst snd ds := by
  induction h with
  | nil => rfl
  | cons first rest ih =>
    rw [HasSlope.leibniz_cons, HasSlope.leibniz_cons, first.real.value_eq, first.slope.value_eq, ih, map_value rest]

theorem sum (h : List.Forall₂ (HasDual ℓ x again?) es ds) : HasDual ℓ x again? (sum es) ds.sum := by
  have parts := regular h
  refine ⟨yields_iff.mpr ⟨regular_sum.mpr fun e he => (parts e he).1, ?_⟩, yields_iff.mpr ?_⟩
  · rw [value_sum fun e he => (parts e he).1, map_value h, Dual.fst_sum]
  · rw [Dual.snd_sum, ← map_slope h]
    exact (evaluation ℓ).diffStep_sum fun e he => (parts e he).2

theorem product (h : List.Forall₂ (HasDual ℓ x again?) es ds) : HasDual ℓ x again? (product es) ds.prod := by
  have parts := regular h
  refine ⟨yields_iff.mpr ⟨regular_product.mpr fun e he => (parts e he).1, ?_⟩, yields_iff.mpr ?_⟩
  · rw [value_product fun e he => (parts e he).1, map_value h, TrivSqZeroExt.fst_list_prod]
  · rw [Dual.snd_prod, ← leibniz h]
    exact (evaluation ℓ).diffStep_product parts

theorem power (h : HasDual ℓ x again? a d) {n : Int} (nonzero : n < 0 → d.fst ≠ 0) :
    HasDual ℓ x again? (power a (num (n : α))) (Dual.raise d n) := by
  have integral : Scalar.isIntegral (n : α) = true := Scalar.isIntegral_iff.mpr ⟨n, rfl⟩
  have regular : Regular ℓ (Expr.power a (.num (n : α))) := by
    refine regular_power.mpr ⟨_, rfl, h.real.regular, integral, ?_⟩
    rw [Scalar.toInt_intCast, h.real.value_eq, Scalar.isZero_eq_false_iff]
    exact nonzero
  refine ⟨yields_iff.mpr ⟨regular, ?_⟩, yields_iff.mpr ?_⟩
  · rw [value_power h.real.regular integral, Scalar.toInt_intCast, h.real.value_eq, Dual.fst_raise]
  · rw [Dual.snd_raise, ← h.real.value_eq, ← h.slope.value_eq]
    exact (evaluation ℓ).diffStep_power regular h.slope.regular

theorem compare (ha : HasDual ℓ x again? a d) (hb : HasDual ℓ x again? b d') (r : Comparison) :
    HasDual ℓ x again? (compare r a b) (inl (Scalar.ofBool (r.holds d.fst d'.fst))) := by
  refine ⟨yields_iff.mpr ⟨regular_compare.mpr ⟨ha.real.regular, hb.real.regular⟩, ?_⟩, ?_⟩
  · rw [value_compare ha.real.regular hb.real.regular, ha.real.value_eq, hb.real.value_eq]
    rfl
  · rw [diffStep_compare]
    exact yields_zero

theorem select (hc : HasDual ℓ x again? c d)
    (branch : HasDual ℓ x again? (if Scalar.isZero d.fst then b else a) d') :
    HasDual ℓ x again? (select c a b) d' := by
  have condition := hc.real.value_eq
  have regular : Regular ℓ (Expr.select c a b) := by
    refine regular_select.mpr ⟨hc.real.regular, ?_⟩
    rw [condition, ← apply_ite (Regular ℓ)]
    exact branch.real.regular
  refine ⟨yields_iff.mpr ⟨regular, ?_⟩, ?_⟩
  · rw [value_select hc.real.regular, condition, ← apply_ite (value ℓ), branch.real.value_eq]
  cases occurs : (Expr.select c a b).contains x with
  | true =>
    rw [diffStep_select occurs]
    refine mkSelect_yields hc.real ?_
    rw [← apply_ite (diffStep x again?)]
    exact branch.slope
  | false =>
    obtain ⟨-, absent⟩ := Bool.or_eq_false_iff.mp occurs
    obtain ⟨absent_a, absent_b⟩ := Bool.or_eq_false_iff.mp absent
    have absent : (if Scalar.isZero d.fst then b else a).contains x = false := by
      split
      · exact absent_b
      · exact absent_a
    rw [diffStep_eq_zero occurs, branch.snd_eq_zero absent]
    exact yields_zero

/-- A function goes on with its slope. -/
theorem chain (ha : HasDual ℓ x again? a d) {f : Builtin} {s : α} (slope : f.slope? d.fst = some s) :
    HasDual ℓ x again? (call f [a]) (inl (Scalar.unary f d.fst) + inr (s * d.snd)) := by
  obtain ⟨outer, derivative, outer_yields⟩ := derivative?_yields ha.real slope
  have arity : f.arity = 1 := by
    cases f with
    | min | max | log | pow => cases derivative
    | _ => rfl
  have function : f ≠ .pow := by
    rintro rfl
    cases arity
  have regular : Regular ℓ (call f [a]) :=
    regular_call.mpr ⟨function, arity.symm, List.forall_mem_singleton.mpr ha.real.regular⟩
  refine ⟨yields_iff.mpr ⟨regular, ?_⟩, ?_⟩
  · rw [value_unary arity ha.real.regular, ha.real.value_eq]
    simp
  have coefficient : (inl (Scalar.unary f d.fst) + inr (s * d.snd) : DualNumber α).snd = s * d.snd := by simp
  rw [coefficient]
  cases occurs : (call f [a]).contains x with
  | true =>
    have product := mul_denotes outer_yields.regular ha.slope.regular
    rw [outer_yields.value_eq, ha.slope.value_eq] at product
    rw [diffStep_chain derivative occurs]
    exact yields_iff.mpr product
  | false =>
    have absent := dependsOnList_eq_false_iff.mp occurs a List.mem_cons_self
    rw [diffStep_eq_zero occurs, ha.snd_eq_zero absent, mul_zero]
    exact yields_zero

/-- A minimum or maximum goes on with the argument that is chosen. -/
theorem choice [LawfulExtrema α] (ha : HasDual ℓ x again? a d) (hb : HasDual ℓ x again? b d') {f : Builtin}
    {r : Comparison} (chooses : f.Chooses r) :
    HasDual ℓ x again? (call f [a, b]) (if r.holds d.fst d'.fst then d else d') := by
  have parts : ∀ e ∈ [a, b], Regular ℓ e :=
    List.forall_mem_cons.mpr ⟨ha.real.regular, List.forall_mem_singleton.mpr hb.real.regular⟩
  have function : f ≠ .pow := by
    rintro rfl
    cases chooses
  refine ⟨yields_iff.mpr ⟨regular_call.mpr ⟨function, chooses.arity.symm, parts⟩, ?_⟩, ?_⟩
  · rw [value_binary chooses.arity parts, ha.real.value_eq, hb.real.value_eq, LawfulExtrema.choose_eq chooses,
      Comparison.choose, apply_ite fst]
  cases occurs : (call f [a, b]).contains x with
  | true =>
    have comparison := mkCompare_denotes (c := r) (regular_compare.mpr ⟨ha.real.regular, hb.real.regular⟩)
    rw [value_compare ha.real.regular hb.real.regular, ha.real.value_eq, hb.real.value_eq] at comparison
    rw [diffStep_choice chooses occurs]
    refine mkSelect_yields (yields_iff.mpr comparison) ?_
    rw [Scalar.isZero_ofBool]
    cases r.holds d.fst d'.fst
    · exact hb.slope
    · exact ha.slope
  | false =>
    have absent := dependsOnList_eq_false_iff.mp occurs
    have vanish : (if r.holds d.fst d'.fst then d else d').snd = 0 := by
      split
      · exact ha.snd_eq_zero (absent a (by simp))
      · exact hb.snd_eq_zero (absent b (by simp))
    rw [diffStep_eq_zero occurs, vanish]
    exact yields_zero

/-- A function goes on with what it makes of dual numbers. -/
theorem call [LawfulExtrema α] (h : List.Forall₂ (HasDual ℓ x again?) es ds) {f : Builtin}
    (result : f.applyDual? ds = some d) : HasDual ℓ x again? (call f es) d := by
  unfold Builtin.applyDual? at result
  split at result
  · obtain ⟨s, slope, rfl⟩ := Option.map_eq_some_iff.mp result
    cases h with
    | cons ha rest =>
      cases rest
      exact ha.chain slope
  · cases h with
    | cons ha rest =>
      cases rest with
      | cons hb rest =>
        cases rest
        split at result
        · cases result; exact ha.choice hb .min
        · cases result; exact ha.choice hb .max
        · cases result
  · cases result

end HasDual

/-! ## Whole expressions -/

variable {ℓ : Symbol → Option α} {x : Symbol}

theorem hasDual_sym (again? : Option (Expr α → Expr α)) {s : Symbol} {v : α} (hv : ℓ s = some v) :
    HasDual ℓ x again? (sym s) (inl v + if s = x then DualNumber.eps else 0) := by
  have regular : Regular ℓ (sym s) := by rw [Regular, hv]; rfl
  have value : value ℓ (sym s) = v := value_of_evaluate hv
  by_cases same : s = x
  · subst same
    rw [if_pos rfl]
    refine ⟨yields_iff.mpr ⟨regular, by simp [value]⟩, ?_⟩
    have derivative : diffStep s again? (sym s) = (one : Expr α) := by simp [diffStep, contains, dependsOn]
    rw [derivative]
    simpa using yields_iff.mpr denotes_one
  · rw [if_neg same, add_zero]
    refine ⟨yields_iff.mpr ⟨regular, value⟩, ?_⟩
    have absent : (sym s : Expr α).contains x = false := beq_false_of_ne same
    rw [diffStep_eq_zero absent]
    exact HasDual.yields_zero

/-- Evaluation over dual numbers gives the value and the value of the derivative. -/
theorem hasDual_of_evaluateDual [LawfulExtrema α] (again? : Option (Expr α → Expr α)) {e : Expr α} {d : DualNumber α}
    (h : evaluateDual ℓ x e = some d) : HasDual ℓ x again? e d := by
  have list {es : List (Expr α)} {ds : List (DualNumber α)}
      (ih : ∀ e ∈ es, ∀ {d : DualNumber α}, evaluateDual ℓ x e = some d → HasDual ℓ x again? e d)
      (h : evaluateDualList ℓ x es = some ds) : List.Forall₂ (HasDual ℓ x again?) es ds := by
    have parts := evaluateDualList_eq_some h
    clear h
    induction parts with
    | nil => exact .nil
    | cons first _ rest =>
      obtain ⟨head, tail⟩ := List.forall_mem_cons.mp ih
      exact .cons (head first) (rest tail)
  induction e generalizing d with
  | num v =>
    rw [evaluateDual] at h
    cases h
    refine ⟨yields_iff.mpr (denotes_num v), ?_⟩
    rw [diffStep_eq_zero rfl]
    exact HasDual.yields_zero
  | sym s =>
    rw [evaluateDual] at h
    obtain ⟨v, hv, rfl⟩ := Option.map_eq_some_iff.mp h
    exact hasDual_sym again? hv
  | sum ts ih =>
    rw [evaluateDual] at h
    obtain ⟨ds, hds, rfl⟩ := Option.map_eq_some_iff.mp h
    exact .sum (list ih hds)
  | product fs ih =>
    rw [evaluateDual] at h
    obtain ⟨ds, hds, rfl⟩ := Option.map_eq_some_iff.mp h
    exact .product (list ih hds)
  | power b e hb _ =>
    cases e with
    | num n =>
      rw [evaluateDual] at h
      obtain ⟨d, hd, h⟩ := Option.bind_eq_some_iff.mp h
      split at h
      · next defined =>
        cases h
        obtain ⟨k, rfl⟩ := Scalar.isIntegral_iff.mp defined.1
        rw [Scalar.toInt_intCast, Scalar.isZero_eq_false_iff] at *
        exact (hb hd).power defined.2
      · cases h
    | _ =>
      rw [evaluateDual] at h
      cases h
      all_goals exact fun _ same => by cases same
  | call f args ih =>
    rw [evaluateDual] at h
    obtain ⟨ds, hds, result⟩ := Option.bind_eq_some_iff.mp h
    exact .call (list ih hds) result
  | compare r a b ha hb =>
    rw [evaluateDual] at h
    obtain ⟨d, hd, h⟩ := Option.bind_eq_some_iff.mp h
    obtain ⟨d', hd', h⟩ := Option.bind_eq_some_iff.mp h
    cases h
    exact (ha hd).compare (hb hd') r
  | select c a b hc ha hb =>
    rw [evaluateDual] at h
    obtain ⟨d, hd, h⟩ := Option.bind_eq_some_iff.mp h
    refine (hc hd).select ?_
    split at h
    · next zero => rw [if_pos zero]; exact hb h
    · next zero => rw [if_neg zero]; exact ha h
  | apply _ _ _ | derivative _ _ _ | integral _ _ _ =>
    rw [evaluateDual] at h
    cases h

/-- Where an expression is defined over dual numbers, it has the real part for its value, and its derivative has the
coefficient of `ε`. -/
theorem diff_yields_of_evaluateDual [LawfulExtrema α] {e : Expr α} {d : DualNumber α}
    (h : evaluateDual ℓ x e = some d) : Yields ℓ e d.fst ∧ Yields ℓ (e.diff x) d.snd := by
  obtain ⟨again?, diff_eq⟩ := exists_diff_eq e
  have dual := hasDual_of_evaluateDual (again? x) h
  rw [diff_eq]
  exact ⟨dual.real, dual.slope⟩

/-- `x^3*ln(x*y) + if(x < y, max(x^2, y), D(x, t)) + atan(x)`. -/
def mixture : Expr ℚ :=
  mkSum [mkProduct [mkPow (named "x") (mkNum 3), mkCall .ln [mkProduct [named "x", named "y"]]],
    mkSelect (mkCompare .lt (named "x") (named "y"))
      (mkCall .max [mkPow (named "x") (mkNum 2), named "y"]) (mkDerivative (named "x") .time),
    mkCall .atan [named "x"]]

/-- `x = 2`, and everything else is three. -/
def twoAndThree (s : Symbol) : Option ℚ := some (if s = .named "x" then 2 else 3)

theorem diff_yields_of_evaluateDual_mixture :
    ∃ d : DualNumber ℚ, evaluateDual twoAndThree (.named "x") mixture = some d ∧ d.fst = 4 ∧ d.snd = 41 / 5 ∧
      Yields twoAndThree mixture d.fst ∧ Yields twoAndThree (mixture.diff (.named "x")) d.snd := by
  have parts : (evaluateDual twoAndThree (.named "x") mixture).map (fun d => (d.fst, d.snd)) = some (4, 41 / 5) := by
    decide +kernel
  obtain ⟨d, defined, same⟩ := Option.map_eq_some_iff.mp parts
  obtain ⟨real, slope⟩ := Prod.mk.inj same
  exact ⟨d, defined, real, slope, diff_yields_of_evaluateDual defined⟩

end Expr

end AnalogCircuit
