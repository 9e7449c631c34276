import AnalogCircuit.Proofs.Occurrence
import AnalogCircuit.Transient.Partition
/-!
# Affine rows

A row whose partial derivatives mention no unknown is affine in all unknowns together: its value changes by a
fixed coefficient times the change of an unknown, wherever the others stand. That survives the elimination of an
unknown even where the rewritten row is not expanded, because it is said of values and not of trees; and the
derivative of the rewritten row is again the coefficient, by the slope of an affine function.
-/

namespace AnalogCircuit

variable {α : Type}

/-! ## Valuations that differ in unknowns -/

/-- The valuations give all symbols but the unknowns the same values. -/
def Agrees (unknown : Symbol → Bool) (v w : Symbol → α) : Prop :=
  ∀ s, unknown s = false → w s = v s

theorem Agrees.refl (U : Symbol → Bool) (v : Symbol → α) : Agrees U v v := fun _ _ => rfl

theorem Agrees.update {U : Symbol → Bool} {v w : Symbol → α} (h : Agrees U v w) {u : Symbol}
    (hu : U u = true) (t : α) : Agrees U v (Function.update w u t) := by
  intro s hs
  have : s ≠ u := by
    rintro rfl
    rw [hu] at hs
    cases hs
  rw [Function.update_of_ne this]
  exact h s hs

/-- What mentions no unknown has the same value under both. -/
theorem Agrees.value_eq [Scalar α] {U : Symbol → Bool} {v w : Symbol → α} (h : Agrees U v w)
    {e : Expr α} (he : e.dependsOn U = false) : e.value (total w) = e.value (total v) :=
  Expr.value_congr (fun s hs => congrArg some (h s hs)) he

namespace Expr

variable [ExactScalar α] {U : Symbol → Bool} {u : Symbol} {v w : Symbol → α}

/-! ## Replacing an unknown -/

/-- Replacing a symbol evaluates with the value of its image in its place. -/
theorem replace_denotes {r e : Expr α} {x : α} (he : Denotes (total w) e x)
    (hr : Regular (total (Function.update w u x)) r) :
    Denotes (total w) (r.replace u e) (value (total (Function.update w u x)) r) := by
  rw [replace_eq]
  refine rewrite_denotes (fun s y hy => ?_) hr
  rw [image_replace]
  by_cases h : s = u
  · subst h
    rw [if_pos rfl]
    rw [total, Function.update_self] at hy
    rwa [← Option.some.inj hy]
  · rw [if_neg h]
    rw [total, Function.update_of_ne h] at hy
    exact ⟨by rw [Regular]; rfl, value_of_evaluate hy⟩

/-- Replacing an unknown by arithmetic leaves arithmetic. -/
theorem isArithmetic_replace {r e : Expr α} (hu : U u = true) (he : isArithmetic U e = true)
    (hr : isArithmetic U r = true) : isArithmetic U (r.replace u e) = true := by
  rw [replace_eq]
  refine isArithmetic_rewrite (fun s => ?_) (fun s hs => ?_) hr
  · rw [image_replace]
    split
    · exact he
    · simp only [isArithmetic]
  · have : s ≠ u := by
      rintro rfl
      rw [hu] at hs
      cases hs
    rw [image_replace, if_neg this]
    exact hs

theorem diff_eq_zero {e : Expr α} (h : e.contains u = false) : e.diff u = zero := by
  obtain ⟨again?, eq⟩ := exists_diff_eq e
  rw [eq, diffStep_eq_zero h]

end Expr

namespace Partition

open Expr

variable [ExactScalar α] {U : Symbol → Bool} {u : Symbol} {v w : Symbol → α}

/-! ## Affine rows -/

/-- Wherever the unknowns stand, the row is regular, and its value changes by fixed coefficients. -/
structure Affine (unknown : Symbol → Bool) (v : Symbol → α) (r : Expr α) (c : Symbol → α) : Prop where
  arithmetic : isArithmetic unknown r = true
  regular : ∀ w, Agrees unknown v w → Regular (total w) r
  change : ∀ w, Agrees unknown v w → ∀ u, unknown u = true → ∀ t,
    value (total (Function.update w u t)) r = value (total w) r + c u * (t - w u)

/-- The derivative of an affine row is its coefficient. -/
theorem Affine.diff {r : Expr α} {c : Symbol → α} (h : Affine U v r c) (hu : U u = true)
    (hw : Agrees U v w) : Denotes (total w) (r.diff u) (c u) := by
  have rational := isRational_of_regular h.arithmetic (h.regular v (Agrees.refl U v))
  obtain ⟨regular, slope⟩ := diff_isSlope (D := Set.univ) hu rational fun t _ => h.regular _ (hw.update hu t)
  have affine (t : α) : value (total (Function.update w u t)) r =
      value (total w) r - c u * w u + c u * t := by
    rw [h.change w hw u hu t]
    ring
  have coefficient := slope.eq_of_affine Set.infinite_univ (fun t _ => affine t) (Set.mem_univ (w u))
  have here := regular (w u) (Set.mem_univ _)
  rw [Function.update_eq_self] at here coefficient
  exact ⟨here, coefficient⟩

/-- A row is affine if its partial derivatives mention no unknown. -/
theorem affine_of_dependsOn {r : Expr α} (arithmetic : isArithmetic U r = true)
    (regular : ∀ w, Agrees U v w → Regular (total w) r)
    (free : ∀ u, U u = true → r.contains u = true → (r.diff u).dependsOn U = false) :
    Affine U v r fun u => value (total v) (r.diff u) := by
  refine ⟨arithmetic, regular, fun w hw u hu t => ?_⟩
  by_cases occurs : r.contains u = true
  · have rational := isRational_of_regular arithmetic (regular v (Agrees.refl U v))
    obtain ⟨-, slope⟩ := diff_isSlope (D := Set.univ) hu rational fun t _ => regular _ (hw.update hu t)
    have constant (t : α) : value (total (Function.update w u t)) (r.diff u) =
        value (total v) (r.diff u) := (hw.update hu t).value_eq (free u hu occurs)
    simp only [constant] at slope
    have here := slope.affine_of_const (w u)
    rw [Function.update_eq_self] at here
    rw [slope.affine_of_const t, here]
    ring
  · have absent : r.contains u = false := by simpa using occurs
    have same : value (total (Function.update w u t)) r = value (total w) r := by
      refine value_congr (p := (· == u)) (fun s hs => ?_) absent
      rw [total, total, Function.update_of_ne (ne_of_beq_false hs)]
    rw [same, diff_eq_zero absent, zero, value_num, zero_mul, add_zero]

/-! ## Solving a row -/

variable {row r : Expr α} {c d : Symbol → α}

theorem isArithmetic_solveFor (h : Affine U v row d) (hu : U u = true) :
    isArithmetic U (solveFor u row) = true := by
  have hereditary := hereditary_isArithmetic (α := α) U
  have rational := isRational_of_regular h.arithmetic (h.regular v (Agrees.refl U v))
  refine hereditary.div (hereditary.neg ?_) (hereditary.diff hu rational h.arithmetic)
  exact isArithmetic_replace hu (by simp only [zero, isArithmetic]) h.arithmetic

/-- The solution of a row takes away from the unknown what is left of the row. -/
theorem Affine.solveFor_denotes (h : Affine U v row d) (hu : U u = true) (pivot : d u ≠ 0)
    (hw : Agrees U v w) :
    Denotes (total w) (solveFor u row) (w u - value (total w) row / d u) := by
  obtain ⟨regular, coefficient⟩ := h.diff hu hw
  obtain ⟨hr, hv⟩ := replace_denotes (denotes_zero (ℓ := total w)) (h.regular _ (hw.update hu 0))
  obtain ⟨hn, hm⟩ := neg_denotes hr
  obtain ⟨hd, hq⟩ := div_denotes hn regular (by rwa [coefficient])
  refine ⟨hd, hq.trans ?_⟩
  rw [hm, hv, coefficient, h.change w hw u hu]
  field_simp
  ring

/-- Putting the solution of one row into another one takes a multiple of the first away. -/
theorem Affine.replaceIn_denotes (hr : Affine U v r c) (h : Affine U v row d) (hu : U u = true)
    (pivot : d u ≠ 0) (hw : Agrees U v w) :
    Denotes (total w) (replaceIn u (solveFor u row) r)
      (value (total w) r - c u / d u * value (total w) row) := by
  unfold Partition.replaceIn
  split
  · obtain ⟨regular, same⟩ := replace_denotes (h.solveFor_denotes hu pivot hw)
      (hr.regular _ (hw.update hu _))
    refine ⟨regular, same.trans ?_⟩
    rw [hr.change w hw u hu]
    ring
  · next absent =>
    obtain ⟨-, coefficient⟩ := hr.diff hu hw
    rw [diff_eq_zero (by simpa using absent), zero, value_num] at coefficient
    rw [← coefficient, zero_div, zero_mul, sub_zero]
    exact (hr.regular w hw).denotes

/-- Elimination keeps rows affine. -/
theorem Affine.replaceIn_affine (hr : Affine U v r c) (h : Affine U v row d) (hu : U u = true)
    (pivot : d u ≠ 0) :
    Affine U v (Partition.replaceIn u (Partition.solveFor u row) r) fun s =>
      c s - c u / d u * d s := by
  refine ⟨?_, fun w hw => (hr.replaceIn_denotes h hu pivot hw).1, fun w hw s hs t => ?_⟩
  · unfold Partition.replaceIn
    split
    · exact isArithmetic_replace hu (isArithmetic_solveFor h hu) hr.arithmetic
    · exact hr.arithmetic
  · rw [(hr.replaceIn_denotes h hu pivot (hw.update hs t)).2, (hr.replaceIn_denotes h hu pivot hw).2,
      hr.change w hw s hs, h.change w hw s hs]
    ring

end Partition

end AnalogCircuit
