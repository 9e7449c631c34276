import AnalogCircuit.Proofs.Junction
import AnalogCircuit.Circuit.Component
/-!
# The gains of a transistor

With the Early effect off and no voltage at one of its junctions, the currents of a transistor are in a fixed ratio.
Forward, the collector carries the forward gain times the current of the base. In reverse the emitter does not carry the
reverse gain `r` times that current: what the reverse junction lets through enters the collector by the factor
`(r + 1) / r` and the base by `1 / (r + 1)`, two factors that do not fit together, and the ratio comes out as
`r + 1 + 1 / r`.
-/

namespace AnalogCircuit

open AnalogCircuit.Expr

variable {α : Type} [ExactScalar α]

/-! ## Junctions without voltage -/

/-- A junction without voltage carries no current. -/
theorem junctionLaw_zero [LinearOrder α] [StrictlyOrderedScalar α] (unit : Scalar.unary .exp (0 : α) = 1)
    {s n k : α} (knee : 0 ≤ k) : junctionLaw s n k 0 = 0 := by
  rw [junctionLaw_eq, if_pos knee, shockley, zero_div, unit, sub_self, mul_zero]

namespace Transistor

theorem knee_eq : (knee : α) = 8 / 10 := by
  refine (ExactScalar.ofDecimal_eq 8 (-1)).trans ?_
  norm_num

section

variable [LinearOrder α] [StrictlyOrderedScalar α]

theorem knee_nonneg : 0 ≤ (knee : α) := by
  rw [knee_eq]
  positivity

variable (unit : Scalar.unary .exp (0 : α) = 1) (q : Transistor α)

include unit

theorem forwardLaw_zero : q.forwardLaw 0 = 0 := by
  rw [forwardLaw, mul_zero, junctionLaw_zero unit knee_nonneg]

theorem reverseLaw_zero : q.reverseLaw 0 = 0 := by
  rw [reverseLaw, mul_zero, junctionLaw_zero unit knee_nonneg]

/-! ## Ratios of currents -/

omit unit in
theorem earlyFactor_off {q : Transistor α} (off : q.early ≤ 0) (x y : α) : q.earlyFactor x y = 1 := by
  have never : ¬ Scalar.lt 0 q.early = true := by simpa [StrictlyOrderedScalar.lt_iff] using off
  rw [earlyFactor, if_neg never]

/-- Forward, the collector carries the gain times the current of the base. -/
theorem collectorLaw_forward {q : Transistor α} (off : q.early ≤ 0) (x : α) :
    q.collectorLaw x 0 = q.forwardGain * q.baseLaw x 0 := by
  rw [collectorLaw, baseLaw, reverseLaw_zero unit, earlyFactor_off off]
  ring

/-- In reverse, the emitter carries more than the gain times the current of the base. -/
theorem emitterLaw_reverse {q : Transistor α} (gain : 0 < q.reverseGain) (y : α) :
    -(q.collectorLaw 0 y + q.baseLaw 0 y) = (q.reverseGain + 1 + q.reverseGain⁻¹) * q.baseLaw 0 y := by
  have nonzero : q.reverseGain ≠ 0 := gain.ne'
  have sum_nonzero : q.reverseGain + 1 ≠ 0 := (add_pos gain one_pos).ne'
  rw [collectorLaw, baseLaw, forwardLaw_zero unit]
  field_simp
  ring

/-- With the Early effect off, the collector carries the forward gain times the current of the base if there is no
voltage from base to collector. If there is none from base to emitter, the emitter carries the reverse gain, one and the
inverse of the reverse gain times that current, which is the reverse gain times it only if there is no current. -/
theorem gains_of_currents {q : Transistor α} (off : q.early ≤ 0) (gain : 0 < q.reverseGain)
    (ℓ : Symbol → Option α) (vbe vbc : Expr α) :
    let i := q.currents vbe vbc
    (∀ x, Expr.Yields ℓ vbe x → Expr.Yields ℓ vbc 0 →
      ∃ ib, Expr.Yields ℓ i.2 ib ∧ Expr.Yields ℓ i.1 (q.forwardGain * ib)) ∧
    (∀ y, Expr.Yields ℓ vbe 0 → Expr.Yields ℓ vbc y →
      ∃ ib, Expr.Yields ℓ i.2 ib ∧
        Expr.Yields ℓ (-(i.1 + i.2)) ((q.reverseGain + 1 + q.reverseGain⁻¹) * ib) ∧
        ((q.reverseGain + 1 + q.reverseGain⁻¹) * ib = q.reverseGain * ib ↔ ib = 0)) ∧
    ∀ (name : String) (k b e : Node) (v : Node → Expr α),
      let i := q.currents (v b - v e) (v b - v k)
      Component.laws v ⟨name, .transistor k b e q⟩ =
        [.current ⟨name, "c", k⟩ i.1, .current ⟨name, "b", b⟩ i.2, .current ⟨name, "e", e⟩ (-(i.1 + i.2))] := by
  have compute := constructors_compute (α := α) ℓ
  refine ⟨fun x hx none => ?_, fun y none hy => ?_, fun _ _ _ _ _ => rfl⟩
  · obtain ⟨collector, base⟩ := currents_yield (q := q) hx none
    rw [collectorLaw_forward unit off] at collector
    exact ⟨_, base, collector⟩
  · obtain ⟨collector, base⟩ := currents_yield (q := q) none hy
    have emitter := compute.neg (compute.add collector base)
    rw [emitterLaw_reverse unit gain] at emitter
    refine ⟨_, base, emitter, ?_⟩
    have excess : 1 + q.reverseGain⁻¹ ≠ 0 := (add_pos one_pos (inv_pos.mpr gain)).ne'
    rw [add_assoc, add_mul, add_eq_left, mul_eq_zero, or_iff_right excess]

end

/-- The standard transistor with its Early effect switched off. -/
noncomputable def steady : Transistor ℝ := { standard .npn with early := 0 }

/-- One volt from base to emitter alone. -/
theorem gains_of_currents_steady :
    steady.early ≤ 0 ∧ 0 < steady.reverseGain ∧
      let i := steady.currents (named "v") (.mkNum 0)
      ∃ ib, Expr.Yields (fun _ => some 1) i.2 ib ∧ Expr.Yields (fun _ => some 1) i.1 (steady.forwardGain * ib) := by
  have off : steady.early ≤ 0 := le_rfl
  have gain : 0 < steady.reverseGain := one_pos
  have none := (constructors_compute (α := ℝ) fun _ => some 1).num 0
  exact ⟨off, gain, (gains_of_currents Real.exp_zero off gain _ _ _).1 1 (sym_yields rfl) none⟩

theorem steady_reverseGain : steady.reverseGain = 1 := rfl

theorem steady_forwardGain : steady.forwardGain = 100 := by
  refine (ExactScalar.ofDecimal_eq 1000 (-1)).trans ?_
  norm_num

theorem steady_collectorSaturation : 0 < steady.collectorSaturation := by
  have decimal : steady.collectorSaturation = (1 : ℕ) * 10 ^ (-14 : ℤ) := ExactScalar.ofDecimal_eq 1 (-14)
  rw [decimal]
  positivity

theorem steady_emission : 0 < steady.emission := by
  have unit : steady.ideality = 1 := rfl
  rw [emission, unit, thermalVoltage_eq]
  norm_num

/-- Half a volt at the junction between base and collector drives a current into the base. -/
theorem steady_baseLaw_pos : 0 < steady.baseLaw 0 (1 / 2) := by
  have sign : (steady.polarity.sign : ℝ) = 1 := rfl
  have below : (1 / 2 : ℝ) ≤ knee := by
    rw [knee_eq]
    norm_num
  have growth : 0 < Real.exp (1 / 2 / steady.emission) - 1 :=
    sub_pos.mpr (Real.one_lt_exp_iff.mpr (div_pos one_half_pos steady_emission))
  rw [baseLaw, forwardLaw_zero Real.exp_zero, reverseLaw, sign, one_mul, one_mul, junctionLaw_eq, if_pos below,
    shockley, steady_reverseGain, zero_div, zero_add]
  exact div_pos (mul_pos steady_collectorSaturation growth) (by norm_num)

/-- Half a volt from base to collector alone: the reverse gain is one, and the emitter carries three times the current
of the base. -/
theorem reverseGain_missed :
    let i := steady.currents (.mkNum 0) (named "v")
    steady.early ≤ 0 ∧ 0 < steady.forwardGain ∧ steady.reverseGain = 1 ∧ steady.ideality ≠ 0 ∧
      ∃ ib, Expr.Yields (fun _ => some (1 / 2)) i.2 ib ∧ Expr.Yields (fun _ => some (1 / 2)) (-(i.1 + i.2)) (3 * ib) ∧
        ¬ Expr.Yields (fun _ => some (1 / 2)) (-(i.1 + i.2)) (steady.reverseGain * ib) := by
  intro i
  have compute := constructors_compute (α := ℝ) fun _ => some (1 / 2)
  have gain : 0 < steady.reverseGain := one_pos
  obtain ⟨collector, base⟩ := currents_yield (q := steady) (compute.num 0) (sym_yields (u := .named "v") rfl)
  have emitter := compute.neg (compute.add collector base)
  rw [emitterLaw_reverse Real.exp_zero gain] at emitter
  have positive := steady_baseLaw_pos
  have ratio : steady.reverseGain + 1 + steady.reverseGain⁻¹ = 3 := by
    rw [steady_reverseGain]
    norm_num
  rw [ratio] at emitter
  refine ⟨le_rfl, ?_, rfl, one_ne_zero, _, base, emitter, fun claimed => ?_⟩
  · rw [steady_forwardGain]
    norm_num
  · have same := emitter.value_eq.symm.trans claimed.value_eq
    rw [steady_reverseGain] at same
    linarith

end Transistor

end AnalogCircuit
