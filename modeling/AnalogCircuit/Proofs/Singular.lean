import Mathlib.LinearAlgebra.FiniteDimensional.Lemmas
import Mathlib.LinearAlgebra.Matrix.Notation
import Mathlib.LinearAlgebra.Matrix.ToLinearEquiv
import AnalogCircuit.Proofs.Combination
import AnalogCircuit.Proofs.Elimination
/-!
# Singular systems

Elimination takes a multiple of the pivot row from the coefficients of every other row, so it is Gaussian elimination of
the coefficient matrix, and an unknown finds no pivot exactly if its coefficient is zero in every row that is left. The
solutions of the homogeneous system tell both outcomes apart: they are those of the pivot rows and of the rows that are
left, and there are as many rows left as unknowns that found no pivot, with all coefficients zero.
-/

namespace AnalogCircuit.Partition

open Expr

variable {α : Type} [ExactScalar α] {U : Symbol → Bool} {u : Symbol} {nominal : Symbol → Option α}

/-! ## One row -/

/-- The coefficients of the solution of a row. -/
theorem isCombination_solveFor (hu : U u = true) {row : Expr α} (h : IsCombination U row) :
    IsCombination U (solveFor u row) ∧ ∀ s, U s = true →
      (solveFor u row).coefficient s = -(if s = u then 0 else row.coefficient s) / row.coefficient u := by
  obtain ⟨rest, remaining⟩ := (isCombination_num (0 : α)).replace hu h
  obtain ⟨negated, negative⟩ := rest.neg
  obtain ⟨solution, quotient⟩ := negated.div_num (row.coefficient u)
  unfold solveFor
  rw [h.diff hu]
  refine ⟨solution, fun s hs => ?_⟩
  show (-(row.replace u (num 0)) / num (row.coefficient u)).coefficient s = _
  rw [quotient s hs, negative s hs, remaining s hs, coefficient_num, mul_zero, add_zero]

/-- Putting the solution of one row into another one takes a multiple of the first away. -/
theorem isCombination_replaceIn (hu : U u = true) {row r : Expr α} (h : IsCombination U row)
    (pivot : row.coefficient u ≠ 0) (hr : IsCombination U r) :
    IsCombination U (replaceIn u (solveFor u row) r) ∧ ∀ s, U s = true →
      (replaceIn u (solveFor u row) r).coefficient s =
        r.coefficient s - r.coefficient u / row.coefficient u * row.coefficient s := by
  unfold replaceIn
  split
  · obtain ⟨solution, coefficients⟩ := isCombination_solveFor hu h
    obtain ⟨replaced, sum⟩ := solution.replace hu hr
    refine ⟨replaced, fun s hs => ?_⟩
    rw [sum s hs, coefficients s hs]
    by_cases here : s = u
    · rw [if_pos here, if_pos here, here]
      field_simp
      ring
    · rw [if_neg here, if_neg here]
      ring
  · next absent =>
    refine ⟨hr, fun s _ => ?_⟩
    have zero : r.coefficient u = 0 := coefficient_eq_zero (by simpa using absent)
    rw [zero, zero_div, zero_mul, sub_zero]

/-- A row has no score for an unknown exactly if its coefficient is zero. -/
theorem score?_eq_none_iff (hu : U u = true) {r : Expr α} (h : IsCombination U r) :
    score? nominal u r = none ↔ r.coefficient u = 0 := by
  unfold score?
  by_cases occurs : r.contains u = true
  · have size : (num (r.coefficient u)).evaluate nominal = some (r.coefficient u) := by
      rw [evaluate_eq (regular_num _), value_num]
    rw [if_pos occurs, h.diff hu]
    simp only [Expr.isZero, size]
    by_cases zero : r.coefficient u = 0
    · simp [zero]
    · have nonzero : Scalar.isZero (r.coefficient u) = false := Scalar.isZero_eq_false_iff.mpr zero
      rw [nonzero, if_neg Bool.false_ne_true, if_neg Bool.false_ne_true]
      refine iff_of_false ?_ zero
      split <;> exact Option.some_ne_none _
  · rw [if_neg occurs]
    exact iff_of_true rfl (coefficient_eq_zero (by simpa using occurs))

theorem nonlinearIn_eq_nil {unknowns : List Symbol} {r : Expr α} (h : IsCombination (unknowns.contains ·) r) :
    nonlinearIn unknowns r = [] := by
  refine List.filter_eq_nil_iff.mpr fun u hu => ?_
  rw [h.diff (List.contains_iff_mem.mpr hu)]
  simp [dependsOn]

/-- A row all of whose coefficients are zero is refused. -/
theorem requireUnknown_eq_error {unknowns : List Symbol} {r : Expr α} (h : IsCombination (unknowns.contains ·) r)
    (zero : ∀ u ∈ unknowns, r.coefficient u = 0) :
    requireUnknown unknowns r = .error (.singularSystem s!"equation reduces to {r.text} == 0") := by
  refine if_pos (List.all_eq_true.mpr fun u hu => ?_)
  rw [h.diff (List.contains_iff_mem.mpr hu), zero u hu]
  exact Scalar.isZero_iff.mpr rfl

/-! ## The course of an elimination -/

section

variable {n : ℕ} {unknown : Fin n → Symbol} {rows₀ : List (Expr α)} {done : List (Fin n)} {e : Elimination α}

/-- The coefficients of a row. -/
def coefficients (unknown : Fin n → Symbol) (r : Expr α) : Fin n → α := fun j => r.coefficient (unknown j)

/-- The homogeneous rows vanish. -/
def Annihilates (unknown : Fin n → Symbol) (y : Fin n → α) (rows : List (Expr α)) : Prop :=
  ∀ r ∈ rows, coefficients unknown r ⬝ᵥ y = 0

/-- The rows that are left have no coefficients of the unknowns that are done with, and together with the pivot rows
they have the homogeneous solutions of the rows at the start. Such a solution is determined by the unknowns that are
still to come, if all others found a pivot. -/
structure Cleared (unknown : Fin n → Symbol) (rows₀ : List (Expr α)) (done : List (Fin n)) (e : Elimination α) :
    Prop where
  combination : ∀ r ∈ e.rows, IsCombination ((List.ofFn unknown).contains ·) r
  zero : ∀ r ∈ e.rows, ∀ j ∈ done, r.coefficient (unknown j) = 0
  length : e.rows.length + e.eliminated.length = rows₀.length
  pivots : ∃ ps : List (Fin n → α), ps.length = e.eliminated.length ∧
    ∀ y, Annihilates unknown y rows₀ ↔ Annihilates unknown y e.rows ∧ ∀ p ∈ ps, p ⬝ᵥ y = 0
  determined : e.left = [] → ∀ y, Annihilates unknown y rows₀ → (∀ j ∉ done, y j = 0) → y = 0

theorem contains_unknown (unknown : Fin n → Symbol) (j : Fin n) : (List.ofFn unknown).contains (unknown j) = true :=
  List.contains_iff_mem.mpr (List.mem_ofFn.mpr ⟨j, rfl⟩)

theorem cleared_start (h : ∀ r ∈ rows₀, IsCombination ((List.ofFn unknown).contains ·) r) :
    Cleared unknown rows₀ [] ⟨rows₀, [], []⟩ where
  combination := h
  zero _ _ _ mem := absurd mem List.not_mem_nil
  length := rfl
  pivots := ⟨[], rfl, by simp⟩
  determined _ y _ zero := funext fun j => zero j List.not_mem_nil

/-- An unknown without pivot has no coefficients. -/
theorem Cleared.skip (h : Cleared unknown rows₀ done e) {j : Fin n}
    (none : pivot? nominal (unknown j) e.rows = none) :
    Cleared unknown rows₀ (j :: done) { e with left := e.left ++ [unknown j] } where
  combination := h.combination
  zero r hr := by
    refine List.forall_mem_cons.mpr ⟨?_, h.zero r hr⟩
    exact (score?_eq_none_iff (contains_unknown unknown j) (h.combination r hr)).mp (score?_eq_none_of_pivot? none r hr)
  length := h.length
  pivots := h.pivots
  determined := by simp

/-- Taking multiples of the pivot row from all others keeps the homogeneous solutions. -/
theorem annihilates_iff {y : Fin n → α} {rows : List (Expr α)} {i : Nat} {row : Expr α}
    (found : pivot? nominal u rows = some (i, row)) {f : Expr α → Expr α} {k : Expr α → α}
    (difference : ∀ r ∈ rows.eraseIdx i,
      coefficients unknown (f r) = coefficients unknown r - k r • coefficients unknown row) :
    Annihilates unknown y rows ↔
      Annihilates unknown y ((rows.eraseIdx i).map f) ∧ coefficients unknown row ⬝ᵥ y = 0 := by
  unfold Annihilates
  rw [forall_rows_iff found, and_comm, List.forall_mem_map]
  refine and_congr_left fun zero => forall₂_congr fun r hr => ?_
  rw [difference r hr, sub_dotProduct, smul_dotProduct, zero, smul_zero, sub_zero]

/-- A row meets a vector in one unknown only, if the vector is zero in all others that are still to come. -/
theorem Cleared.dotProduct_eq (h : Cleared unknown rows₀ done e) {row : Expr α} (mem : row ∈ e.rows) {j : Fin n}
    {y : Fin n → α} (others : ∀ k ∉ j :: done, y k = 0) :
    coefficients unknown row ⬝ᵥ y = row.coefficient (unknown j) * y j := by
  refine Finset.sum_eq_single j (fun k _ other => ?_) (by simp)
  by_cases hk : k ∈ done
  · show row.coefficient (unknown k) * y k = 0
    rw [h.zero row mem k hk, zero_mul]
  · rw [others k (by simp [other, hk]), mul_zero]

/-- A pivot row is taken away from all others. -/
theorem Cleared.eliminate (h : Cleared unknown rows₀ done e) {j : Fin n} {i : Nat} {row : Expr α}
    (found : pivot? nominal (unknown j) e.rows = some (i, row)) :
    Cleared unknown rows₀ (j :: done)
      { e with
        rows := (e.rows.eraseIdx i).map (replaceIn (unknown j) (solveFor (unknown j) row))
        eliminated := e.eliminated ++ [⟨unknown j, solveFor (unknown j) row⟩] } := by
  obtain ⟨mem, others⟩ := (forall_rows_iff found).mp fun r hr => hr
  obtain ⟨hrow, hothers⟩ := (forall_rows_iff found).mp h.combination
  have hu := contains_unknown unknown j
  have pivot : row.coefficient (unknown j) ≠ 0 := fun zero =>
    (spec_of_pivot? found).2 ((score?_eq_none_iff hu hrow).mpr zero)
  have reduced (r : Expr α) (hr : r ∈ e.rows.eraseIdx i) :=
    isCombination_replaceIn hu hrow pivot (hothers r hr)
  have rows (y : Fin n → α) := annihilates_iff (y := y) found fun r hr =>
    funext fun k => (reduced r hr).2 (unknown k) (contains_unknown unknown k)
  obtain ⟨ps, length, pivots⟩ := h.pivots
  refine ⟨?_, ?_, ?_, ?_, ?_⟩
  · exact List.forall_mem_map.mpr fun r hr => (reduced r hr).1
  · refine List.forall_mem_map.mpr fun r hr => List.forall_mem_cons.mpr ⟨?_, fun k hk => ?_⟩
    · rw [(reduced r hr).2 _ hu, div_mul_cancel₀ _ pivot, sub_self]
    · rw [(reduced r hr).2 _ (contains_unknown unknown k), h.zero r (others r hr) k hk, h.zero row mem k hk, mul_zero,
        sub_zero]
  · have one_less := (perm_of_pivot? found).length_eq
    rw [List.length_cons] at one_less
    rw [← h.length, List.length_map, List.length_append, List.length_singleton]
    omega
  · refine ⟨ps ++ [coefficients unknown row], by simp [length], fun y => ?_⟩
    rw [pivots, rows, List.forall_mem_append, List.forall_mem_singleton]
    tauto
  · intro left y solution zero
    -- the pivot row meets the solution in its own unknown only, which is zero therefore
    have meets := h.dotProduct_eq mem zero
    rw [((rows y).mp ((pivots y).mp solution).1).2] at meets
    have here : y j = 0 := (mul_eq_zero.mp meets.symm).resolve_left pivot
    refine h.determined left y solution fun k hk => ?_
    by_cases same : k = j
    · rw [same, here]
    · exact zero k (by simp [same, hk])

theorem Cleared.step (h : Cleared unknown rows₀ done e) (j : Fin n) :
    Cleared unknown rows₀ (j :: done) (e.step nominal (unknown j)) := by
  unfold Elimination.step
  split
  · next none => exact h.skip none
  · next found => exact h.eliminate found

theorem Cleared.foldl (h : Cleared unknown rows₀ done e) (js : List (Fin n)) :
    Cleared unknown rows₀ (js.reverse ++ done) ((js.map unknown).foldl (Elimination.step nominal) e) := by
  induction js generalizing done e with
  | nil => exact h
  | cons j js ih =>
    rw [List.reverse_cons, List.append_assoc]
    exact ih (h.step j)

/-- Fewer equations than unknowns have a solution other than zero. -/
theorem exists_ne_zero_of_length_lt {ps : List (Fin n → α)} (h : ps.length < n) : ∃ y ≠ 0, ∀ p ∈ ps, p ⬝ᵥ y = 0 := by
  have kernel : LinearMap.ker (Matrix.of ps.get).mulVecLin ≠ ⊥ := LinearMap.ker_ne_bot_of_finrank_lt (by simpa using h)
  obtain ⟨y, mem, nonzero⟩ := Submodule.exists_mem_ne_zero_of_ne_bot kernel
  refine ⟨y, nonzero, fun p hp => ?_⟩
  obtain ⟨i, rfl⟩ := List.get_of_mem hp
  exact congrFun (LinearMap.mem_ker.mp mem) i

end

/-! ## Singular systems -/

section

variable {unknowns : List Symbol} {residuals : List (Expr α)}

theorem nonlinear_eq_nil (h : ∀ r ∈ residuals, IsCombination (unknowns.contains ·) r) :
    nonlinear unknowns residuals = [] :=
  List.flatMap_eq_nil_iff.mpr fun r hr => nonlinearIn_eq_nil (h r hr)

/-- All unknowns of combinations are eliminated, with all rows. -/
theorem eliminated_eq (h : ∀ r ∈ residuals, IsCombination (unknowns.contains ·) r) :
    eliminated unknowns residuals nominal = unknowns.foldl (Elimination.step nominal) ⟨residuals, [], []⟩ := by
  have all : start unknowns residuals = ⟨residuals, [], []⟩ := by
    unfold start
    rw [List.filter_eq_self.mpr fun r hr => by rw [nonlinearIn_eq_nil (h r hr), List.isEmpty_nil]]
  have each : linear unknowns residuals = unknowns := by
    unfold linear
    rw [nonlinear_eq_nil h]
    exact List.filter_eq_self.mpr fun _ _ => rfl
  rw [eliminated, all, each]

theorem curved_eq_nil (h : ∀ r ∈ residuals, IsCombination (unknowns.contains ·) r) : curved unknowns residuals = [] :=
  List.filter_eq_nil_iff.mpr fun r hr => by rw [nonlinearIn_eq_nil (h r hr)]; decide

/-- If no row is left and every unknown is eliminated, nothing is iterated. -/
theorem ofResiduals_eq_ok_of_eliminated (h : ∀ r ∈ residuals, IsCombination (unknowns.contains ·) r)
    (size : residuals.length = unknowns.length) (rows : (eliminated unknowns residuals nominal).rows = [])
    (left : (eliminated unknowns residuals nominal).left = []) :
    ofResiduals unknowns residuals nominal =
      .ok ⟨(eliminated unknowns residuals nominal).eliminated.reverse, [], []⟩ := by
  have iterated : unknowns.filter (fun u => (nonlinear unknowns residuals).contains u ||
      (eliminated unknowns residuals nominal).left.contains u) = [] := by
    rw [nonlinear_eq_nil h, left]
    exact List.filter_eq_nil_iff.mpr fun _ _ => by simp
  rw [ofResiduals_eq size]
  simp only [rows, curved_eq_nil h, iterated]
  rfl

/-- If some row is left, all of whose coefficients are zero, there is no partition. -/
theorem ofResiduals_eq_error_of_zero (size : residuals.length = unknowns.length)
    {r : Expr α} {rs : List (Expr α)} (rows : (eliminated unknowns residuals nominal).rows = r :: rs)
    (h : IsCombination (unknowns.contains ·) r) (zero : ∀ u ∈ unknowns, r.coefficient u = 0) :
    ofResiduals unknowns residuals nominal = .error (.singularSystem s!"equation reduces to {r.text} == 0") := by
  have refused : (r :: rs).forM (requireUnknown unknowns) =
      .error (.singularSystem s!"equation reduces to {r.text} == 0") := by
    show (requireUnknown unknowns r >>= fun _ => rs.forM (requireUnknown unknowns)) = _
    rw [requireUnknown_eq_error h zero]
    rfl
  rw [ofResiduals_eq size]
  simp only [rows, refused]
  rfl

end

section

variable {n : ℕ} {unknown : Fin n → Symbol} {residual : Fin n → Expr α}

/-- What elimination comes to. -/
theorem cleared_eliminated (nominal : Symbol → Option α)
    (h : ∀ i, IsCombination ((List.ofFn unknown).contains ·) (residual i)) :
    Cleared unknown (List.ofFn residual) (List.finRange n).reverse
      (eliminated (List.ofFn unknown) (List.ofFn residual) nominal) := by
  have h : ∀ r ∈ List.ofFn residual, IsCombination ((List.ofFn unknown).contains ·) r :=
    List.forall_mem_ofFn_iff.mpr h
  have ended : Cleared unknown _ _ (((List.finRange n).map unknown).foldl (Elimination.step nominal) _) :=
    (cleared_start h).foldl (List.finRange n)
  rwa [List.append_nil, ← List.ofFn_eq_map, ← eliminated_eq h] at ended

theorem mulVec_eq_zero_iff (y : Fin n → α) :
    (Matrix.of fun i => coefficients unknown (residual i)).mulVec y = 0 ↔
      Annihilates unknown y (List.ofFn residual) := by
  unfold Annihilates
  rw [List.forall_mem_ofFn_iff, funext_iff]
  rfl

/-- Every unknown found a pivot or none, and every row was one or is left. -/
theorem length_eliminated (nominal : Symbol → Option α)
    (h : ∀ i, IsCombination ((List.ofFn unknown).contains ·) (residual i)) :
    let e := eliminated (List.ofFn unknown) (List.ofFn residual) nominal
    e.eliminated.length + e.left.length = n ∧ e.rows.length = e.left.length := by
  intro e
  have unknowns := (@perm_foldl_step _ _ nominal (List.ofFn unknown) ⟨List.ofFn residual, [], []⟩).length_eq
  rw [← eliminated_eq (List.forall_mem_ofFn_iff.mpr h), List.length_append, List.length_map] at unknowns
  have unknowns : e.eliminated.length + e.left.length = n := by simpa using unknowns
  have rows : e.rows.length + e.eliminated.length = n := by simpa using (cleared_eliminated nominal h).length
  omega

/-- The coefficient matrix is regular exactly if every unknown finds a pivot. -/
theorem det_ne_zero_iff (nominal : Symbol → Option α)
    (h : ∀ i, IsCombination ((List.ofFn unknown).contains ·) (residual i)) :
    (Matrix.of fun i => coefficients unknown (residual i)).det ≠ 0 ↔
      (eliminated (List.ofFn unknown) (List.ofFn residual) nominal).left = [] := by
  have cleared := cleared_eliminated nominal h
  obtain ⟨unknowns, rows⟩ := length_eliminated nominal h
  rw [ne_eq, ← Matrix.exists_mulVec_eq_zero_iff]
  simp only [mulVec_eq_zero_iff]
  constructor
  · intro regular
    by_contra some
    obtain ⟨ps, length, pivots⟩ := cleared.pivots
    have fewer : ps.length < n := by
      have := List.length_pos_iff.mpr some
      omega
    obtain ⟨y, nonzero, solution⟩ := exists_ne_zero_of_length_lt fewer
    refine regular ⟨y, nonzero, (pivots y).mpr ⟨fun r hr => ?_, solution⟩⟩
    have zero : coefficients unknown r = 0 := funext fun j => cleared.zero r hr j (by simp)
    rw [zero, zero_dotProduct]
  · rintro none ⟨y, nonzero, solution⟩
    exact nonzero (cleared.determined none y solution (by simp))

/-- Elimination decides whether a numeric linear system is singular: where each residual is nested from unknowns, from
terms without unknowns, from sums and from products by constants, all unknowns are assigned if the coefficient matrix is
regular, and otherwise the system is refused as singular. -/
theorem ofResiduals_decides_singularity (c : Fin n → Symbol → α)
    (nested : ∀ i, Combines ((List.ofFn unknown).contains ·) (residual i) (c i)) (nominal : Symbol → Option α) :
    let A := Matrix.of fun i j => c i (unknown j)
    (A.det ≠ 0 → ∃ p, ofResiduals (List.ofFn unknown) (List.ofFn residual) nominal = .ok p ∧
      p.iterated = [] ∧ p.assignments.length = n) ∧
    (A.det = 0 → ∃ message,
      ofResiduals (List.ofFn unknown) (List.ofFn residual) nominal = .error (.singularSystem message)) := by
  intro A
  have combination i := (nested i).isCombination.1
  have each : ∀ r ∈ List.ofFn residual, IsCombination ((List.ofFn unknown).contains ·) r :=
    List.forall_mem_ofFn_iff.mpr combination
  have matrix : A = Matrix.of fun i => coefficients unknown (residual i) := by
    ext i j
    exact ((nested i).isCombination.2 _ (contains_unknown unknown j)).symm
  have size : (List.ofFn residual).length = (List.ofFn unknown).length := by simp
  have decides := det_ne_zero_iff nominal combination
  obtain ⟨unknowns, rows⟩ := length_eliminated nominal combination
  rw [matrix]
  constructor
  · intro regular
    have left := decides.mp regular
    rw [left, List.length_nil] at rows unknowns
    refine ⟨_, ofResiduals_eq_ok_of_eliminated each size (List.length_eq_zero_iff.mp rows) left, rfl, ?_⟩
    rw [List.length_reverse]
    exact unknowns
  · intro singular
    have cleared := cleared_eliminated nominal combination
    -- an unknown without pivot leaves a row behind, and no unknown has a coefficient in it
    obtain ⟨r, rs, some⟩ : ∃ r rs, (eliminated (List.ofFn unknown) (List.ofFn residual) nominal).rows = r :: rs := by
      refine List.exists_cons_of_ne_nil fun none => ?_
      rw [none, List.length_nil] at rows
      exact decides.mpr (List.length_eq_zero_iff.mp rows.symm) singular
    have mem := some ▸ List.mem_cons_self (a := r) (l := rs)
    refine ⟨_, ofResiduals_eq_error_of_zero size some (cleared.combination r mem) fun u hu => ?_⟩
    obtain ⟨j, rfl⟩ := List.mem_ofFn.mp hu
    exact cleared.zero r mem j (by simp)

/-- Two rows of which the second is nested; how often it takes away the second unknown is left open. -/
def crossing (k : ℚ) : Fin 2 → Expr ℚ :=
  let x := Expr.named "x"
  let y := Expr.named "y"
  ![x + y - .named "e", .num 2 * (x + .num 3 * y) - .num k * (y + mkSqrt (.named "r"))]

theorem ofResiduals_decides_singularity_crossing :
    let unknowns := List.ofFn ![Symbol.named "x", Symbol.named "y"]
    let solve k := ofResiduals unknowns (List.ofFn (crossing k)) fun _ => none
    (∃ p, solve 3 = .ok p ∧ p.iterated = [] ∧ p.assignments.length = 2) ∧
      ∃ message, solve 4 = .error (.singularSystem message) := by
  intro unknowns solve
  let c (k : ℚ) : Fin 2 → Symbol → ℚ :=
    let x := Pi.single (Symbol.named "x") 1
    let y := Pi.single (Symbol.named "y") 1
    ![x + y - 0, (2 : ℚ) • (x + (3 : ℚ) • y) - k • (y + 0)]
  have nested (k : ℚ) (i : Fin 2) : Combines (unknowns.contains ·) (crossing k i) (c k i) := by
    have x : Combines (unknowns.contains ·) (.named "x" : Expr ℚ) _ := .sym (by decide)
    have y : Combines (unknowns.contains ·) (.named "y" : Expr ℚ) _ := .sym (by decide)
    fin_cases i
    · exact (x.add y).sub (.free (by decide))
    · exact ((x.add (y.mul_num 3)).mul_num 2).sub ((y.add (.free (by decide))).mul_num k)
  have det (k : ℚ) : (Matrix.of fun i j => c k i (![Symbol.named "x", Symbol.named "y"] j)).det = 4 - k := by
    have apart : Symbol.named "x" ≠ Symbol.named "y" := by decide
    simp [Matrix.det_fin_two, c, apart, apart.symm]
    ring
  exact ⟨(ofResiduals_decides_singularity (c 3) (nested 3) _).1 (by rw [det]; norm_num),
    (ofResiduals_decides_singularity (c 4) (nested 4) _).2 (by rw [det]; norm_num)⟩

end

end AnalogCircuit.Partition
