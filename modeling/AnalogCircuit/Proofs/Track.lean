import AnalogCircuit.Proofs.Atoms
import AnalogCircuit.Proofs.Difference
import AnalogCircuit.Proofs.Dual
import AnalogCircuit.Proofs.Pivoting
import AnalogCircuit.Circuit.Component
/-!
# The halves of a potentiometer

A knob may be turned to any number and the total may be any number: the total is raised to one ohm, the tap is kept away
from either end, and the halves that come out are raised once more. So no half is below its floor, a turn of the knob
makes one half larger and the other smaller, and together they have the total unless one had to be raised. By neither
of them does a current divide by zero.

The total and the position may be constants, which fold on the way, or expressions that are evaluated in whatever way.
-/

namespace AnalogCircuit

open Expr

variable {α : Type} [ExactScalar α]

namespace Potentiometer

/-! ## Numbers -/

theorem floor_eq : (floor : α) = 1 / 10 := by
  refine (ExactScalar.ofDecimal_eq 1 (-1)).trans ?_
  norm_num

section

variable [LinearOrder α]

/-- Where the tap stands for a position that is asked for. -/
def tap (position : α) : α := min (max position (1 / 1000)) (999 / 1000)

/-- The resistance from the first end to the tap. -/
def upperLaw (total position : α) : α := max (tap position * max total 1) floor

/-- The resistance from the tap to the second end. -/
def lowerLaw (total position : α) : α := max ((1 - tap position) * max total 1) floor

theorem le_laws (total position : α) : 1 / 10 ≤ upperLaw total position ∧ 1 / 10 ≤ lowerLaw total position := by
  rw [← floor_eq]
  exact ⟨le_max_right _ _, le_max_right _ _⟩

theorem tap_mono {x y : α} (h : x ≤ y) : tap x ≤ tap y := min_le_min_right _ (max_le_max_right _ h)

theorem add_halves (total position : α) :
    tap position * max total 1 + (1 - tap position) * max total 1 = max total 1 := by ring

/-- If neither half had to be raised they have exactly the total. -/
theorem add_laws_eq {total position : α} (upper : upperLaw total position ≠ 1 / 10)
    (lower : lowerLaw total position ≠ 1 / 10) : upperLaw total position + lowerLaw total position = max total 1 := by
  rw [← floor_eq] at upper lower
  have own {x : α} (h : max x floor ≠ floor) : max x floor = x := (max_choice x _).resolve_right h
  rw [upperLaw, lowerLaw, own upper, own lower, add_halves]

end

variable [LinearOrder α] [StrictlyOrderedScalar α]

/-- Together the halves have at least the total. -/
theorem le_add_laws (total position : α) : max total 1 ≤ upperLaw total position + lowerLaw total position := by
  calc max total 1 = tap position * max total 1 + (1 - tap position) * max total 1 := (add_halves total position).symm
    _ ≤ upperLaw total position + lowerLaw total position := add_le_add (le_max_left _ _) (le_max_left _ _)

theorem upperLaw_mono (total : α) {x y : α} (h : x ≤ y) : upperLaw total x ≤ upperLaw total y := by
  have positive : 0 ≤ max total 1 := zero_le_one.trans (le_max_right _ _)
  exact max_le_max_right _ (mul_le_mul_of_nonneg_right (tap_mono h) positive)

theorem lowerLaw_anti (total : α) {x y : α} (h : x ≤ y) : lowerLaw total y ≤ lowerLaw total x := by
  have positive : 0 ≤ max total 1 := zero_le_one.trans (le_max_right _ _)
  exact max_le_max_right _ (mul_le_mul_of_nonneg_right (sub_le_sub_left (tap_mono h) 1) positive)

/-- No half is zero. -/
theorem laws_ne_zero (total position : α) : upperLaw total position ≠ 0 ∧ lowerLaw total position ≠ 0 := by
  have floor_pos : (0 : α) < 1 / 10 := by positivity
  obtain ⟨upper, lower⟩ := le_laws total position
  exact ⟨(floor_pos.trans_le upper).ne', (floor_pos.trans_le lower).ne'⟩

/-! ## Expressions -/

variable [LawfulExtrema α]

theorem binary_max (a b : α) : Scalar.binary .max a b = max a b := by
  rw [LawfulExtrema.choose_eq .max, Comparison.choose, Comparison.holds]
  split_ifs with h
  · exact (max_eq_left (StrictlyOrderedScalar.lt_iff.mp h).le).symm
  · exact (max_eq_right (not_lt.mp fun less => h (StrictlyOrderedScalar.lt_iff.mpr less))).symm

theorem binary_min (a b : α) : Scalar.binary .min a b = min a b := by
  rw [LawfulExtrema.choose_eq .min, Comparison.choose, Comparison.holds]
  split_ifs with h
  · exact (min_eq_left (StrictlyOrderedScalar.lt_iff.mp h).le).symm
  · exact (min_eq_right (not_lt.mp fun less => h (StrictlyOrderedScalar.lt_iff.mpr less))).symm

variable {ℓ : Symbol → Option α} {e total position : Expr α} {x T P : α}

theorem atLeast_denotes (h : evaluate ℓ e = some x) (floor : α) :
    (arithmetic ℓ).Denotes (atLeast e floor) (max x floor) := by
  rw [← binary_max]
  exact mkCall_num_denotes (by decide) h rfl

theorem atMost_denotes (h : evaluate ℓ e = some x) (ceiling : α) :
    (arithmetic ℓ).Denotes (atMost e ceiling) (min x ceiling) := by
  rw [← binary_min]
  exact mkCall_num_denotes (by decide) h rfl

theorem limited_denotes (hT : evaluate ℓ total = some T) (hP : evaluate ℓ position = some P) :
    (arithmetic ℓ).Denotes (limited total position).total (max T 1) ∧
      (arithmetic ℓ).Denotes (limited total position).position (tap P) := by
  have low : (Scalar.ofDecimal 1 (-3) : α) = 1 / 1000 := by
    refine (ExactScalar.ofDecimal_eq 1 (-3)).trans ?_
    norm_num
  have high : (Scalar.ofDecimal 999 (-3) : α) = 999 / 1000 := by
    refine (ExactScalar.ofDecimal_eq 999 (-3)).trans ?_
    norm_num
  rw [tap, ← low, ← high]
  exact ⟨atLeast_denotes hT 1, atMost_denotes (evaluate_of_denotes (atLeast_denotes hP _)) _⟩

theorem halves_denote (hT : evaluate ℓ total = some T) (hP : evaluate ℓ position = some P) :
    (arithmetic ℓ).Denotes (limited total position).upper (upperLaw T P) ∧
      (arithmetic ℓ).Denotes (limited total position).lower (lowerLaw T P) := by
  obtain ⟨total, position⟩ := limited_denotes hT hP
  have one : (arithmetic ℓ).Denotes (mkNum 1) 1 := mkNum_eq (1 : α) ▸ Interpretation.denotes_num 1
  rw [upperLaw, lowerLaw]
  exact ⟨atLeast_denotes (evaluate_of_denotes (position.mul total)) floor,
    atLeast_denotes (evaluate_of_denotes ((one.sub position).mul total)) floor⟩

omit [LinearOrder α] [StrictlyOrderedScalar α] [LawfulExtrema α] in
/-- Node voltages are zero or symbols, and so are arithmetic as soon as they evaluate to something. -/
theorem denotes_of_isPotential (potential : IsPotential e) (h : evaluate ℓ e = some x) :
    (arithmetic ℓ).Denotes e x := by
  rcases potential with rfl | ⟨s, rfl⟩
  · obtain rfl : 0 = x := Option.some.inj h
    exact Interpretation.denotes_zero
  · exact denotes_of_evaluate trivial h

/-- Whatever the total and the position evaluate to, each half evaluates to a tenth of an ohm at least. For one total
the first half does not fall and the second does not rise with the position, together they have at least the total of
one ohm or more, and exactly that if neither is at its floor. So the currents divide by no zero. -/
theorem limited_never_degenerates :
    (∀ (ℓ : Symbol → Option α) (total position : Expr α) (T P : α),
      evaluate ℓ total = some T → evaluate ℓ position = some P →
      let p := limited total position
      evaluate ℓ p.upper = some (upperLaw T P) ∧ evaluate ℓ p.lower = some (lowerLaw T P) ∧
        ∀ (name : String) (a w b : Node) (v : Node → Expr α) (x y z : α), (∀ n, IsPotential (v n)) →
          evaluate ℓ (v a) = some x → evaluate ℓ (v w) = some y → evaluate ℓ (v b) = some z →
          let i₁ := (v a - v w) / p.upper
          let i₂ := (v w - v b) / p.lower
          Component.laws v ⟨name, .potentiometer a w b p⟩ =
              [.current ⟨name, "a", a⟩ i₁, .current ⟨name, "w", w⟩ (i₂ - i₁), .current ⟨name, "b", b⟩ (-i₂)] ∧
            evaluate ℓ i₁ = some ((x - y) / upperLaw T P) ∧ evaluate ℓ (-i₂) = some (-((y - z) / lowerLaw T P)) ∧
            evaluate ℓ (i₂ - i₁) = some ((y - z) / lowerLaw T P - (x - y) / upperLaw T P)) ∧
    ∀ T P : α, 1 / 10 ≤ upperLaw T P ∧ 1 / 10 ≤ lowerLaw T P ∧ max T 1 ≤ upperLaw T P + lowerLaw T P ∧
      (upperLaw T P ≠ 1 / 10 → lowerLaw T P ≠ 1 / 10 → upperLaw T P + lowerLaw T P = max T 1) ∧
      ∀ P', P ≤ P' → upperLaw T P ≤ upperLaw T P' ∧ lowerLaw T P' ≤ lowerLaw T P := by
  refine ⟨fun ℓ total position T P hT hP => ?_, fun T P => ?_⟩
  · obtain ⟨upper, lower⟩ := halves_denote hT hP
    obtain ⟨upper_ne_zero, lower_ne_zero⟩ := laws_ne_zero T P
    refine ⟨evaluate_of_denotes upper, evaluate_of_denotes lower, ?_⟩
    intro name a w b v x y z potentials hx hy hz i₁ i₂
    have wiper := denotes_of_isPotential (potentials w) hy
    have first := ((denotes_of_isPotential (potentials a) hx).sub wiper).div upper upper_ne_zero
    have second := (wiper.sub (denotes_of_isPotential (potentials b) hz)).div lower lower_ne_zero
    exact ⟨rfl, evaluate_of_denotes first, evaluate_of_denotes second.neg, evaluate_of_denotes (second.sub first)⟩
  · obtain ⟨upper, lower⟩ := le_laws T P
    exact ⟨upper, lower, le_add_laws T P, add_laws_eq, fun P' h => ⟨upperLaw_mono T h, lowerLaw_anti T h⟩⟩

/-- A knob that is turned too far, on a track with a negative resistance. -/
theorem limited_never_degenerates_overturned :
    let p : Potentiometer ℚ := limited (.mkNum (-5)) (named "knob")
    evaluate (fun _ => some 2) p.upper = some (999 / 1000) ∧ evaluate (fun _ => some 2) p.lower = some (1 / 10) ∧
      (1 / 10 : ℚ) ≤ upperLaw (-5) 2 ∧ (1 / 10 : ℚ) ≤ lowerLaw (-5) 2 ∧
      (lowerLaw (-5) 2 : ℚ) ≤ lowerLaw (-5) (1 / 2) := by
  obtain ⟨values, bounds⟩ := limited_never_degenerates (α := ℚ)
  obtain ⟨upper, lower, -⟩ := values (fun _ => some 2) (.mkNum (-5)) (named "knob") (-5) 2 rfl rfl
  obtain ⟨upper_floor, lower_floor, -⟩ := bounds (-5) 2
  obtain ⟨-, -, -, -, mono⟩ := bounds (-5) (1 / 2)
  have upper_value : (upperLaw (-5) 2 : ℚ) = 999 / 1000 := by norm_num [upperLaw, tap, floor_eq]
  have lower_value : (lowerLaw (-5) 2 : ℚ) = 1 / 10 := by norm_num [lowerLaw, tap, floor_eq]
  rw [upper_value] at upper
  rw [lower_value] at lower
  exact ⟨upper, lower, upper_floor, lower_floor, (mono 2 (by norm_num)).2⟩

end Potentiometer

end AnalogCircuit
