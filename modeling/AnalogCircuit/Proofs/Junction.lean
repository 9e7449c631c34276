import AnalogCircuit.Proofs.Reals
import AnalogCircuit.Proofs.Combination
import AnalogCircuit.Proofs.Conservation
import AnalogCircuit.Circuit.Junction
/-!
# The law of a junction

What the current through a junction is, as a number, and what its derivative is: Shockley's law and its slope up to the
knee, the tangent and the slope at the knee above it. The expression of the current is built and differentiated by the
canonical constructors, which rescale and reorder it and fold what is constant; neither changes a value. Currents and
slopes of the two pieces agree at the knee, so the law has no corner there.

Nothing is asked of the exponential function but that there is one for numbers and for expressions.
-/

namespace AnalogCircuit

open TrivSqZeroExt (inl inr fst snd)

variable {α : Type} [ExactScalar α]

/-! ## Constructors and derivatives -/

theorem Expr.sym_yields {ℓ : Symbol → Option α} {u : Symbol} {x : α} (h : ℓ u = some x) :
    Expr.Yields ℓ (.sym u) x := ⟨by rw [Expr.Regular, h]; rfl, h⟩

/-- The exponential function is its own slope. -/
theorem Builtin.slope?_exp (a : α) : Builtin.exp.slope? a = some (Scalar.unary .exp a) := by
  have x : Expr.Yields (fun _ => some a) (Expr.named "x") a := Expr.sym_yields rfl
  have compute := Expr.constructors_compute (α := α) fun _ => some a
  exact Expr.defined?_eq_some_iff.mpr (compute.call (f := .exp) (by decide) (.cons x .nil) rfl)

namespace Expr

theorem hasDual_num {ℓ : Symbol → Option α} {u : Symbol} (again? : Option (Expr α → Expr α)) (c : α) :
    HasDual ℓ u again? (num c) (inl c) := by
  refine ⟨yields_iff.mpr (denotes_num c), ?_⟩
  rw [diffStep_eq_zero rfl]
  exact HasDual.yields_zero

/-- The derivative of a combination of symbols is its coefficient. -/
theorem Combines.hasDual {ℓ : Symbol → Option α} {U : Symbol → Bool} {u : Symbol} {e : Expr α} {c : Symbol → α} {x : α}
    (h : Combines U e c) (hu : U u = true) (again? : Option (Expr α → Expr α)) (hx : Yields ℓ e x) :
    HasDual ℓ u again? e (inl x + inr (c u)) := by
  obtain ⟨combination, coefficients⟩ := h.isCombination
  refine ⟨by simpa using hx, ?_⟩
  rw [combination.diffStep_eq hu again?, coefficients u hu]
  simpa using yields_iff.mpr (denotes_num (c u))

namespace HasDual

variable {ℓ : Symbol → Option α} {u : Symbol} {again? : Option (Expr α → Expr α)} {a b c : Expr α}
  {d d' : DualNumber α}

/-- The derivative yields the slope if that does not depend on the calls that leave the tree. -/
theorem diff_yields (h : ∀ again?, HasDual ℓ u again? a d) : Yields ℓ (a.diff u) d.snd := by
  obtain ⟨again?, diff_eq⟩ := exists_diff_eq a
  rw [diff_eq]
  exact (h (again? u)).slope

/-- A base is multiplied by constants. -/
theorem mkProduct (h : HasDual ℓ u again? b d) (base : IsBase b) (before after : List α) :
    HasDual ℓ u again? (mkProduct (before.map num ++ b :: after.map num)) (inl (before.prod * after.prod) * d) := by
  rw [base.toIsFactor.hasFactors.mkProduct_eq_assemble base.toIsFactor base.isSteady, mul_one, assemble_singleton]
  generalize before.prod * after.prod = k
  split_ifs with zero one
  · rw [Scalar.isZero_iff.mp zero, TrivSqZeroExt.inl_zero, zero_mul]
    exact hasDual_num again? 0
  · rwa [Scalar.isOne_iff.mp one, TrivSqZeroExt.inl_one, one_mul]
  · have factors : List.Forall₂ (HasDual ℓ u again?) [num k, b] [inl k, d] :=
      .cons (hasDual_num again? k) (.cons h .nil)
    simpa using HasDual.product factors

/-- A comparison of two constants is folded. -/
theorem mkCompare (ha : HasDual ℓ u again? a d) (hb : HasDual ℓ u again? b d') (r : Comparison) :
    HasDual ℓ u again? (mkCompare r a b) (inl (Scalar.ofBool (r.holds d.fst d'.fst))) := by
  unfold Expr.mkCompare
  split
  · next x y =>
    have left : d.fst = x := Option.some.inj (ha.real.evaluates.symm.trans rfl)
    have right : d'.fst = y := Option.some.inj (hb.real.evaluates.symm.trans rfl)
    rw [mkNum_eq, left, right]
    exact hasDual_num again? _
  · exact ha.compare hb r

/-- A choice goes on with the branch that is taken, also where the branches are equal and none is left. -/
theorem mkSelect (hc : HasDual ℓ u again? c d)
    (branch : HasDual ℓ u again? (if Scalar.isZero d.fst then b else a) d') :
    HasDual ℓ u again? (mkSelect c a b) d' := by
  unfold Expr.mkSelect
  split
  · next v =>
    have value : d.fst = v := Option.some.inj (hc.real.evaluates.symm.trans rfl)
    rwa [value] at branch
  · split
    · next same =>
      rw [← eq_of_beq same, ite_self] at branch
      exact branch
    · exact hc.select branch

end HasDual

/-- A function of one argument and a constant are the terms of a sum, the constant in front. -/
theorem mkSum_call_num (f : Builtin) (es : List (Expr α)) {c : α} (nonzero : c ≠ 0) :
    mkSum [call f es, num c] = sum [num c, call f es] := by
  have terms : termsList [call f es, num c] = [call f es, num c] := rfl
  have like : collectTerms [call f es, num c] = [(call f es, 1 + 0)] := rfl
  have alone : scale 1 (call f es) = call f es := by rw [(isBase_call f es).scale_eq, if_pos (by simp)]
  have summands : summands [call f es, num c] = [call f es, num c] := by
    unfold summands
    rw [terms, like]
    simp [List.filterMap_cons, constant?, Scalar.isZero_eq_false_iff, alone, nonzero]
  have sorted : sort [call f es, num c] = [num c, call f es] := rfl
  rw [mkSum_eq, summands, sorted]
  rfl

/-- To divide by a constant is to divide the value. -/
theorem div_mkNum_yields {ℓ : Symbol → Option α} {e : Expr α} {x : α} (h : Yields ℓ e x) (d : α) :
    Yields ℓ (e / mkNum d) (x / d) := by
  have quotient := Interpretation.div_num_denotes (M := evaluation ℓ) h.regular d
  rw [mkNum_eq]
  exact yields_iff.mpr ⟨quotient.1, quotient.2.trans (congrArg (· / d) h.value_eq)⟩

/-- A base that is divided by a constant is no constant. -/
theorem IsBase.constant?_div_num {b : Expr α} (h : IsBase b) (d : α) (nonzero : d ≠ 0) :
    (b / num d).constant? = none := by
  rw [div_num_eq]
  show (mkProduct ([].map num ++ b :: [d⁻¹].map num)).constant? = none
  rw [h.toIsFactor.hasFactors.mkProduct_eq_assemble h.toIsFactor h.isSteady, assemble_singleton,
    if_neg (by simpa using nonzero)]
  split
  · exact h.nonconstant
  · rfl

/-- What is subtracted from a growth that is not constant. -/
theorem mkExp_sub_num {e : Expr α} (varying : e.constant? = none) {c : α} (nonzero : c ≠ 0) :
    mkExp e - num c = sum [num (-c), call .exp [e]] := by
  show mkSum [mkExp e, -num c] = _
  rw [mkExp, mkCall_eq_call varying, neg_eq_mkProduct, mkProduct_nums, neg_one_mul,
    mkSum_call_num _ _ (neg_ne_zero.mpr nonzero)]

end Expr

open AnalogCircuit.Expr

/-! ## Numbers -/

/-- The current through an ideal junction at the voltage `x`. -/
def shockley (saturation emission x : α) : α := saturation * (Scalar.unary .exp (x / emission) - 1)

/-- The conductance of an ideal junction at the voltage `x`. -/
def conductance (saturation emission x : α) : α := saturation / emission * Scalar.unary .exp (x / emission)

/-- The current through a junction: Shockley's law, and above the knee its tangent there. -/
def junctionLaw (saturation emission knee x : α) : α :=
  if Scalar.lt knee x then shockley saturation emission knee + conductance saturation emission knee * (x - knee)
  else shockley saturation emission x

/-- The conductance of a junction, which does not change above the knee. -/
def junctionSlope (saturation emission knee x : α) : α :=
  conductance saturation emission (if Scalar.lt knee x then knee else x)

theorem thermalVoltage_eq : (thermalVoltage : α) = 258 / 10000 := by
  refine (ExactScalar.ofDecimal_eq 258 (-4)).trans ?_
  norm_num

/-! ## The two pieces -/

/-- Shockley's law as an expression. -/
def exponentialPiece (v : Expr α) (saturation emission : α) : Expr α :=
  .mkNum saturation * (.mkExp (v / .mkNum emission) - .mkNum 1)

/-- The tangent at the knee as an expression. -/
def tangentPiece (v : Expr α) (saturation emission knee : α) : Expr α :=
  .mkNum (shockley saturation emission knee) + .mkNum (conductance saturation emission knee) * (v - .mkNum knee)

theorem junctionCurrent_eq (v : Expr α) (s n k : α) : junctionCurrent v s n k =
    .mkSelect (.mkCompare .gt v (.mkNum k)) (tangentPiece v s n k) (exponentialPiece v s n) := rfl

section

variable {ℓ : Symbol → Option α} {v : Expr α} {s n k x : α}

theorem exponentialPiece_yields (h : Expr.Yields ℓ v x) : Expr.Yields ℓ (exponentialPiece v s n) (shockley s n x) := by
  have compute := constructors_compute (α := α) ℓ
  have growth : Expr.Yields ℓ (mkExp (v / mkNum n)) (Scalar.unary .exp (x / n)) :=
    compute.call (f := .exp) (by decide) (.cons (div_mkNum_yields h n) .nil) rfl
  exact compute.mul (compute.num s) (compute.sub growth (compute.num 1))

theorem tangentPiece_yields (h : Expr.Yields ℓ v x) :
    Expr.Yields ℓ (tangentPiece v s n k) (shockley s n k + conductance s n k * (x - k)) := by
  have compute := constructors_compute (α := α) ℓ
  exact compute.add (compute.num _) (compute.mul (compute.num _) (compute.sub h (compute.num k)))

theorem junctionCurrent_yields (h : Expr.Yields ℓ v x) :
    Expr.Yields ℓ (junctionCurrent v s n k) (junctionLaw s n k x) := by
  have compute := constructors_compute (α := α) ℓ
  refine compute.select (compute.compare h (compute.num k)) ?_
  rw [Scalar.isZero_ofBool]
  unfold junctionLaw
  show Expr.Yields ℓ (if (!Scalar.lt k x) = true then _ else _) _
  cases Scalar.lt k x with
  | true => exact tangentPiece_yields h
  | false => exact exponentialPiece_yields h

/-! ## Slopes -/

variable {u : Symbol} {again? : Option (Expr α → Expr α)}

/-- What the exponential function of a varying expression exceeds one by. -/
theorem growth_hasDual {e : Expr α} (varying : e.constant? = none) {d : DualNumber α} (h : HasDual ℓ u again? e d) :
    HasDual ℓ u again? (mkExp e - num 1)
        (inl (Scalar.unary .exp d.fst - 1) + inr (Scalar.unary .exp d.fst * d.snd)) ∧
      IsBase (mkExp e - num 1) := by
  rw [mkExp_sub_num varying one_ne_zero]
  have growth := h.chain (Builtin.slope?_exp _)
  have terms := HasDual.sum (.cons (hasDual_num again? (-1)) (.cons growth .nil))
  refine ⟨(congrArg (HasDual ℓ u again? _) ?_).mp terms, isBase_sum _⟩
  ext <;> simp [sub_eq_neg_add]

/-- Shockley's law is a multiple of a growth, and its argument a multiple of the voltage. -/
theorem exponentialPiece_hasDual (base : IsBase v) (nonzero : n ≠ 0) {d : DualNumber α} (h : HasDual ℓ u again? v d) :
    HasDual ℓ u again? (exponentialPiece v s n) (inl (shockley s n d.fst) + inr (conductance s n d.fst * d.snd)) := by
  have argument : HasDual ℓ u again? (v / num n) (inl n⁻¹ * d) := by
    rw [div_num_eq]
    simpa using h.mkProduct base [] [n⁻¹]
  obtain ⟨growth, sum⟩ := growth_hasDual (base.constant?_div_num n nonzero) argument
  have scaled := growth.mkProduct sum [s] []
  rw [exponentialPiece, mkNum_eq, mkNum_eq, mkNum_eq]
  refine (congrArg (HasDual ℓ u again? _) ?_).mp scaled
  ext
  · simp [shockley, div_eq_inv_mul]
  · simp [conductance, div_eq_inv_mul, mul_assoc, mul_left_comm]

variable {U : Symbol → Bool} {c : Symbol → α}

/-- A combination of symbols that is rescaled and moved is one again. -/
theorem tangentPiece_hasDual (h : Combines U v c) (hu : U u = true) (hx : Expr.Yields ℓ v x) :
    HasDual ℓ u again? (tangentPiece v s n k)
      (inl (shockley s n k + conductance s n k * (x - k)) + inr (conductance s n k * c u)) := by
  have constant (r : α) : Combines U (num r) (0 : Symbol → α) := .free rfl
  have tangent : Combines U (tangentPiece v s n k) (0 + conductance s n k • (c - 0)) := by
    rw [tangentPiece, mkNum_eq, mkNum_eq, mkNum_eq]
    exact (constant _).add ((h.sub (constant k)).mul_num _)
  simpa using tangent.hasDual hu again? (tangentPiece_yields hx)

/-- The law of a junction and its slope, at a combination of symbols. -/
theorem junctionCurrent_hasDual (base : IsBase v) (h : Combines U v c) (hu : U u = true) (nonzero : n ≠ 0)
    (hx : Expr.Yields ℓ v x) :
    HasDual ℓ u again? (junctionCurrent v s n k) (inl (junctionLaw s n k x) + inr (junctionSlope s n k x * c u)) := by
  have voltage := h.hasDual hu again? hx
  have condition := voltage.mkCompare (hasDual_num again? k) .gt
  rw [junctionCurrent_eq, mkNum_eq]
  refine condition.mkSelect ?_
  have above : Comparison.holds .gt (inl x + inr (c u) : DualNumber α).fst (inl k : DualNumber α).fst =
      Scalar.lt k x := by simp [Comparison.holds]
  rw [TrivSqZeroExt.fst_inl, Scalar.isZero_ofBool, above]
  unfold junctionLaw junctionSlope
  cases Scalar.lt k x with
  | true => exact tangentPiece_hasDual h hu hx
  | false => simpa using exponentialPiece_hasDual (s := s) base nonzero voltage

theorem junctionCurrent_diff_yields (base : IsBase v) (h : Combines U v c) (hu : U u = true) (nonzero : n ≠ 0)
    (hx : Expr.Yields ℓ v x) :
    Expr.Yields ℓ ((junctionCurrent v s n k).diff u) (junctionSlope s n k x * c u) := by
  have slope := HasDual.diff_yields fun _ =>
    junctionCurrent_hasDual (s := s) (k := k) (u := u) base h hu nonzero hx
  simpa using slope

end

/-! ## Transistors -/

namespace Transistor

variable (q : Transistor α) (x y : α)

/-- The current that the junction between base and emitter lets through, with the sign of the polarity taken off. -/
def forwardLaw : α := junctionLaw q.emitterSaturation q.emission knee (q.polarity.sign * x)

/-- The current that the junction between base and collector lets through. -/
def reverseLaw : α := junctionLaw q.collectorSaturation q.emission knee (q.polarity.sign * y)

/-- The factor by which the Early effect raises the transport current. -/
def earlyFactor : α := if Scalar.lt 0 q.early then 1 + q.polarity.sign * (x - y) / q.early else 1

/-- The current into the collector at the voltages `x` from base to emitter and `y` from base to collector. -/
def collectorLaw : α :=
  q.polarity.sign * (q.forwardGain / (q.forwardGain + 1) * q.forwardLaw x * q.earlyFactor x y -
    (q.reverseGain + 1) / q.reverseGain * q.reverseLaw y)

/-- The current into the base. -/
def baseLaw : α := q.polarity.sign * (q.forwardLaw x / (q.forwardGain + 1) + q.reverseLaw y / (q.reverseGain + 1))

variable {q x y} {ℓ : Symbol → Option α} {vbe vbc : Expr α}

/-- The expressions of the currents yield what the laws say. -/
theorem currents_yield (hbe : Expr.Yields ℓ vbe x) (hbc : Expr.Yields ℓ vbc y) :
    Expr.Yields ℓ (q.currents vbe vbc).1 (q.collectorLaw x y) ∧
      Expr.Yields ℓ (q.currents vbe vbc).2 (q.baseLaw x y) := by
  have compute := constructors_compute (α := α) ℓ
  have sign := compute.num (q.polarity.sign : α)
  have forward : Expr.Yields ℓ _ (q.forwardLaw x) := junctionCurrent_yields (compute.mul sign hbe)
  have reverse : Expr.Yields ℓ _ (q.reverseLaw y) := junctionCurrent_yields (compute.mul sign hbc)
  have plain := compute.mul (compute.num (q.forwardGain / (q.forwardGain + 1))) forward
  have loss := compute.mul (compute.num ((q.reverseGain + 1) / q.reverseGain)) reverse
  refine ⟨compute.mul sign (compute.sub ?_ loss),
    compute.mul sign (compute.add (div_mkNum_yields forward _) (div_mkNum_yields reverse _))⟩
  unfold earlyFactor
  cases Scalar.lt 0 q.early with
  | true =>
    have tilt := div_mkNum_yields (compute.mul sign (compute.sub hbe hbc)) q.early
    exact compute.mul plain (compute.add (compute.num 1) tilt)
  | false => simpa using plain

/-- A transistor of the other type carries the opposite currents at the opposite voltages. -/
theorem laws_mirror (q : Transistor α) (x y : α) :
    collectorLaw { q with polarity := .pnp } x y = -collectorLaw { q with polarity := .npn } (-x) (-y) ∧
      baseLaw { q with polarity := .pnp } x y = -baseLaw { q with polarity := .npn } (-x) (-y) := by
  have difference : -1 * (x - y) = 1 * (-x - -y) := by ring
  constructor
  · simp only [collectorLaw, forwardLaw, reverseLaw, earlyFactor, emission, Polarity.sign, difference, neg_one_mul,
      one_mul]
  · simp only [baseLaw, forwardLaw, reverseLaw, emission, Polarity.sign, neg_one_mul, one_mul]

end Transistor

section

variable [LinearOrder α] [StrictlyOrderedScalar α] {s n k x : α}

theorem junctionLaw_eq : junctionLaw s n k x =
    if x ≤ k then shockley s n x else shockley s n k + conductance s n k * (x - k) := by
  unfold junctionLaw
  simp only [StrictlyOrderedScalar.lt_iff, ← not_le, ite_not]

theorem junctionSlope_eq : junctionSlope s n k x = if x ≤ k then conductance s n x else conductance s n k := by
  unfold junctionSlope
  simp only [StrictlyOrderedScalar.lt_iff, ← not_le, ite_not, apply_ite (conductance s n)]

end

/-! ## Over the real numbers -/

section

variable {s n k : ℝ}

theorem hasDerivAt_shockley (x : ℝ) : HasDerivAt (shockley s n) (conductance s n x) x := by
  have growth : HasDerivAt (fun y => Real.exp (y / n)) (Real.exp (x / n) * (1 / n)) x :=
    ((hasDerivAt_id x).div_const n).exp
  have slope : s * (Real.exp (x / n) * (1 / n)) = conductance s n x := by
    show _ = s / n * Real.exp (x / n)
    ring
  exact slope ▸ (growth.sub_const 1).const_mul s

/-- Over the real numbers the law of a junction has its slope for a derivative everywhere, the knee included. -/
theorem hasDerivAt_junctionLaw (x : ℝ) : HasDerivAt (junctionLaw s n k) (junctionSlope s n k x) x := by
  have tangent (y : ℝ) : HasDerivAt (fun x => shockley s n k + conductance s n k * (x - k)) (conductance s n k) y := by
    simpa using (((hasDerivAt_id y).sub_const k).const_mul (conductance s n k)).const_add (shockley s n k)
  have below {y : ℝ} (h : y ≤ k) : junctionLaw s n k y = shockley s n y := by rw [junctionLaw_eq, if_pos h]
  have above {y : ℝ} (h : k ≤ y) : junctionLaw s n k y = shockley s n k + conductance s n k * (y - k) := by
    rcases h.eq_or_lt with rfl | h
    · rw [below le_rfl, sub_self, mul_zero, add_zero]
    · rw [junctionLaw_eq, if_neg h.not_ge]
  rw [junctionSlope_eq]
  rcases lt_trichotomy x k with h | rfl | h
  · rw [if_pos h.le]
    exact (hasDerivAt_shockley x).congr_of_eventuallyEq ((eventually_le_nhds h).mono fun y hy => below hy)
  · rw [if_pos le_rfl]
    have left := (hasDerivAt_shockley (s := s) (n := n) x).hasDerivWithinAt.congr (s := Set.Iic x)
      (fun y hy => below hy) (below le_rfl)
    have right := (tangent x).hasDerivWithinAt.congr (s := Set.Ici x) (fun y hy => above hy) (above le_rfl)
    simpa using left.union right
  · rw [if_neg h.not_ge]
    exact (tangent x).congr_of_eventuallyEq ((eventually_ge_nhds h).mono fun y hy => above hy)

theorem continuous_junctionSlope : Continuous (junctionSlope s n k) := by
  have capped (x : ℝ) : junctionSlope s n k x = s / n * Real.exp (min x k / n) := by
    rw [junctionSlope_eq]
    split_ifs with h
    · rw [min_eq_left h]; rfl
    · rw [min_eq_right (not_le.mp h).le]; rfl
  rw [funext capped]
  fun_prop

end

theorem Diode.standard_knee : (Diode.standard : Diode ℝ).knee = 7 / 10 := by
  refine (ExactScalar.ofDecimal_eq 7 (-1)).trans ?_
  norm_num

theorem Diode.standard_emission : (Diode.standard : Diode ℝ).emission = 258 / 10000 := by
  rw [Diode.emission, thermalVoltage_eq]
  exact one_mul _

/-! ## Both pieces meet at the knee -/

/-- The current through a junction is Shockley's up to the knee and the tangent's above it, and so is its derivative;
both pieces have one value and one derivative at the knee. Transistors of the two types are mirror images. -/
theorem junction_smooth_and_mirrored [LinearOrder α] [StrictlyOrderedScalar α] (s k : α) {n : α} (nonzero : n ≠ 0) :
    (∀ (ℓ : Symbol → Option α) (v : Expr α) (x : α), Expr.Yields ℓ v x →
      Expr.Yields ℓ (junctionCurrent v s n k)
        (if x ≤ k then shockley s n x else shockley s n k + conductance s n k * (x - k))) ∧
    (∀ (ℓ : Symbol → Option α) (u : Symbol) (x : α), ℓ u = some x →
      Expr.Yields ℓ ((junctionCurrent (.sym u) s n k).diff u)
        (if x ≤ k then conductance s n x else conductance s n k)) ∧
    (∀ (ℓ : Symbol → Option α) (u : Symbol), ℓ u = some k →
      let tangent := tangentPiece (.sym u) s n k
      let exponential := exponentialPiece (.sym u) s n
      junctionCurrent (.sym u) s n k = .mkSelect (.mkCompare .gt (.sym u) (.mkNum k)) tangent exponential ∧
        Expr.Yields ℓ tangent (shockley s n k) ∧ Expr.Yields ℓ exponential (shockley s n k) ∧
        Expr.Yields ℓ (tangent.diff u) (conductance s n k) ∧
        Expr.Yields ℓ (exponential.diff u) (conductance s n k)) ∧
    ∀ (q : Transistor α) (ℓ ℓ' : Symbol → Option α) (vbe vbc vbe' vbc' : Expr α) (x y : α),
      Expr.Yields ℓ vbe x → Expr.Yields ℓ vbc y → Expr.Yields ℓ' vbe' (-x) → Expr.Yields ℓ' vbc' (-y) →
      let pnp := Transistor.currents { q with polarity := .pnp } vbe vbc
      let npn := Transistor.currents { q with polarity := .npn } vbe' vbc'
      ∃ ic ib, Expr.Yields ℓ pnp.1 ic ∧ Expr.Yields ℓ pnp.2 ib ∧
        Expr.Yields ℓ' npn.1 (-ic) ∧ Expr.Yields ℓ' npn.2 (-ib) := by
  have voltage (u : Symbol) : Combines (· == u) (.sym u) (Pi.single u (1 : α)) := .sym (beq_self_eq_true u)
  refine ⟨fun ℓ v x hx => ?_, fun ℓ u x hx => ?_, fun ℓ u hk => ?_, ?_⟩
  · rw [← junctionLaw_eq]
    exact junctionCurrent_yields hx
  · rw [← junctionSlope_eq]
    simpa using junctionCurrent_diff_yields (isBase_sym u) (voltage u) (beq_self_eq_true u) nonzero (sym_yields hx)
  · have knee : Expr.Yields ℓ (.sym u) k := sym_yields hk
    have tangent := tangentPiece_yields (s := s) (n := n) (k := k) knee
    rw [sub_self, mul_zero, add_zero] at tangent
    refine ⟨rfl, tangent, exponentialPiece_yields knee, ?_, ?_⟩
    · simpa using HasDual.diff_yields fun _ =>
        tangentPiece_hasDual (s := s) (n := n) (voltage u) (beq_self_eq_true u) knee
    · simpa using HasDual.diff_yields fun again? =>
        exponentialPiece_hasDual (s := s) (isBase_sym u) nonzero (hasDual_sym (x := u) again? hk)
  · intro q ℓ ℓ' vbe vbc vbe' vbc' x y hx hy hx' hy'
    obtain ⟨pnp_collector, pnp_base⟩ := Transistor.currents_yield (q := { q with polarity := .pnp }) hx hy
    obtain ⟨npn_collector, npn_base⟩ := Transistor.currents_yield (q := { q with polarity := .npn }) hx' hy'
    obtain ⟨collector, base⟩ := Transistor.laws_mirror q x y
    rw [collector] at pnp_collector
    rw [base] at pnp_base
    exact ⟨_, _, pnp_collector, pnp_base, by rwa [neg_neg], by rwa [neg_neg]⟩

/-- A silicon diode at one volt, which is above its knee, and a transistor of either type. -/
theorem junction_smooth_and_mirrored_silicon :
    let d : Diode ℝ := .standard
    let v : Expr ℝ := named "v"
    d.emission ≠ 0 ∧
      Expr.Yields (fun _ => some 1) (d.current v)
        (shockley d.saturation d.emission d.knee + conductance d.saturation d.emission d.knee * (1 - d.knee)) ∧
      Expr.Yields (fun _ => some 1) ((d.current v).diff (.named "v")) (conductance d.saturation d.emission d.knee) ∧
      ∃ ic ib, Expr.Yields (fun _ => some 1) ((Transistor.standard .pnp).currents v v).1 ic ∧
        Expr.Yields (fun _ => some 1) ((Transistor.standard .pnp).currents v v).2 ib ∧
        Expr.Yields (fun _ => some (-1)) ((Transistor.standard .npn).currents v v).1 (-ic) ∧
        Expr.Yields (fun _ => some (-1)) ((Transistor.standard .npn).currents v v).2 (-ib) := by
  intro d v
  have nonzero : d.emission ≠ 0 := by
    rw [Diode.standard_emission]
    norm_num
  have above : ¬ (1 : ℝ) ≤ d.knee := by
    rw [Diode.standard_knee]
    norm_num
  obtain ⟨value, slope, -, mirror⟩ := junction_smooth_and_mirrored d.saturation d.knee nonzero
  have current := value (fun _ => some 1) v 1 (sym_yields rfl)
  have rate := slope (fun _ => some 1) (.named "v") 1 rfl
  rw [if_neg above] at current rate
  exact ⟨nonzero, current, rate, mirror (.standard .npn) (fun _ => some 1) (fun _ => some (-1)) v v v v 1 1
    (sym_yields rfl) (sym_yields rfl) (sym_yields rfl) (sym_yields rfl)⟩

end AnalogCircuit
