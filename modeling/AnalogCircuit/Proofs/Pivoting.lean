import Mathlib.LinearAlgebra.Matrix.Notation
import AnalogCircuit.Proofs.Factors
/-!
# Factoring with partial pivoting

A factored matrix is a permutation of the rows of the given one, written as the product of its two triangles. The
pivot of a column is the largest of the entries that are left in it, and so no multiplier is greater than one in size;
a later exchange of rows takes the multipliers along and keeps that.

One object is factored and solved with again and again. What it holds after a call of factoring does not depend on
the calls before it, whether those came to an end or gave up halfway.
-/

namespace AnalogCircuit

/-- Both comparisons and the magnitude are those of an ordered field. -/
class StrictlyOrderedScalar (α : Type) [ExactScalar α] [LinearOrder α] : Prop extends OrderedScalar α where
  lt_iff {a b : α} : Scalar.lt a b = true ↔ a < b

instance : StrictlyOrderedScalar ℚ where
  lt_iff := decide_eq_true_iff

namespace Factors

variable {α : Type} [ExactScalar α] {n : Nat}

/-! ## Multipliers -/

section

variable [LinearOrder α] {f : Factors α n} {k m : Fin n}

/-- No entry that is left in the column is larger than its pivot. -/
theorem abs_entry_le_pivotRow [StrictlyOrderedScalar α] (f : Factors α n) {k i : Fin n} (hi : k ≤ i) :
    |f.entry i k| ≤ |f.entry (f.pivotRow k) k| := by
  -- what the search has found is at least what it started from and what it has passed
  have search (is : List (Fin n)) (m : Fin n) :
      let found := is.foldl (fun m i =>
        if k < i ∧ Scalar.lt (Scalar.abs (f.entry m k)) (Scalar.abs (f.entry i k)) then i else m) m
      |f.entry m k| ≤ |f.entry found k| ∧ ∀ i ∈ is, k < i → |f.entry i k| ≤ |f.entry found k| := by
    induction is generalizing m with
    | nil => exact ⟨le_rfl, fun i hi => absurd hi List.not_mem_nil⟩
    | cons i is ih =>
      simp only [List.foldl_cons, OrderedScalar.abs_eq, StrictlyOrderedScalar.lt_iff] at ih ⊢
      by_cases larger : k < i ∧ |f.entry m k| < |f.entry i k|
      · rw [if_pos larger]
        obtain ⟨start, rest⟩ := ih i
        exact ⟨larger.2.le.trans start, List.forall_mem_cons.mpr ⟨fun _ => start, rest⟩⟩
      · rw [if_neg larger]
        obtain ⟨start, rest⟩ := ih m
        refine ⟨start, List.forall_mem_cons.mpr ⟨fun below => ?_, rest⟩⟩
        have smaller : |f.entry i k| ≤ |f.entry m k| := le_of_not_gt fun lt => larger ⟨below, lt⟩
        exact smaller.trans start
  obtain ⟨start, rest⟩ := search (List.finRange n) k
  rcases hi.eq_or_lt with rfl | below
  · exact start
  · exact rest i (List.mem_finRange i) below

/-- The multipliers in the columns before column `k` are at most one in size. -/
def HasSmallMultipliers (k : Nat) (f : Factors α n) : Prop :=
  ∀ i j : Fin n, j.val < k → j < i → |f.entry i j| ≤ 1

/-- Rows that are not finished are exchanged with their multipliers. -/
theorem HasSmallMultipliers.exchange (h : f.HasSmallMultipliers k) (le : k ≤ m) :
    (f.exchange k m).HasSmallMultipliers k := by
  intro i j hj below
  have before : j < k := hj
  have below' : j < Equiv.swap k m i := by
    rw [Equiv.swap_apply_def]
    split_ifs
    · exact before.trans_le le
    · exact before
    · exact below
  rw [entry_exchange]
  exact h _ j hj below'

theorem HasSmallMultipliers.clearColumn [OrderedScalar α] (h : f.HasSmallMultipliers k)
    (largest : ∀ i, k ≤ i → |f.entry i k| ≤ |f.entry k k|) : (f.clearColumn k).HasSmallMultipliers (k + 1) := by
  intro i j hj below
  have le : j ≤ k := Fin.le_def.mpr (Nat.lt_succ_iff.mp hj)
  rw [entry_clearColumn]
  by_cases lt : k < i
  · rw [if_pos lt]
    rcases le.lt_or_eq with before | rfl
    · rw [if_pos before]
      exact h i j before below
    · rw [if_neg (lt_irrefl j), if_pos rfl, abs_div]
      exact div_le_one_of_le₀ (largest i lt.le) (abs_nonneg _)
  · rw [if_neg lt]
    exact h i j (below.trans_le (not_lt.mp lt)) below

theorem hasSmallMultipliers_factor [StrictlyOrderedScalar α] {entries : List α}
    (found : (factor entries : Factors α n × Option Error).2 = none) :
    (factor entries : Factors α n × Option Error).1.HasSmallMultipliers n := by
  have start : (ofEntries entries : Factors α n).HasSmallMultipliers 0 :=
    fun _ j hj => absurd hj (Nat.not_lt_zero j)
  refine factor_induction (P := HasSmallMultipliers) start (fun k f small _ => ?_) found
  refine (small.exchange (f.le_pivotRow k)).clearColumn fun i hi => ?_
  have left : k ≤ Equiv.swap k (f.pivotRow k) i := by
    rw [Equiv.swap_apply_def]
    split_ifs
    · exact f.le_pivotRow k
    · exact le_rfl
    · exact hi
  rw [entry_exchange, entry_exchange, Equiv.swap_apply_left]
  exact f.abs_entry_le_pivotRow left

end

/-! ## Triangles -/

/-- The multipliers, and ones on the diagonal. -/
def lowerTriangle (f : Factors α n) : Matrix (Fin n) (Fin n) α :=
  .of fun i j => if j < i then f.entry i j else if j = i then 1 else 0

/-- The entries on the diagonal and right of it. -/
def upperTriangle (f : Factors α n) : Matrix (Fin n) (Fin n) α :=
  .of fun i j => if i ≤ j then f.entry i j else 0

theorem mulVec_upperTriangle (f : Factors α n) (x : Fin n → α) : f.upperTriangle.mulVec x = f.upper x := by
  funext i
  show ∑ j, (if i ≤ j then f.entry i j else 0) * x j = f.upper x i
  simp only [ite_mul, zero_mul]
  rfl

theorem mulVec_lowerTriangle (f : Factors α n) (y : Fin n → α) (i : Fin n) :
    f.lowerTriangle.mulVec y i = (∑ j, if j < i then f.entry i j * y j else 0) + y i := by
  have split (j : Fin n) : f.lowerTriangle i j * y j =
      (if j < i then f.entry i j * y j else 0) + if j = i then y j else 0 := by
    show (if j < i then f.entry i j else if j = i then 1 else 0) * y j = _
    by_cases before : j < i
    · rw [if_pos before, if_pos before, if_neg before.ne, add_zero]
    · rw [if_neg before, if_neg before, ite_mul, one_mul, zero_mul, zero_add]
  show ∑ j, f.lowerTriangle i j * y j = _
  simp only [split]
  rw [Finset.sum_add_distrib, Finset.sum_ite_eq' Finset.univ i, if_pos (Finset.mem_univ i)]

variable {A : Matrix (Fin n) (Fin n) α} {f : Factors α n}

/-- Finished factors multiply to the given matrix with its rows in another order. -/
theorem Reduced.submatrix_eq (h : Reduced A n f) :
    A.submatrix f.pivots.get id = f.lowerTriangle * f.upperTriangle := by
  refine Matrix.ext_iff_mulVec.mpr fun x => funext fun i => ?_
  rw [← Matrix.mulVec_mulVec, mulVec_upperTriangle, mulVec_lowerTriangle, ← product_eq, ← h.product]
  rfl

/-- The solution by position. -/
def solution (f : Factors α n) (b : Fin n → α) (j : Fin n) : α := (f.solve (List.ofFn b)).getD j 0

theorem ofFn_solution (f : Factors α n) (b : Fin n → α) : List.ofFn (f.solution b) = f.solve (List.ofFn b) := by
  have length : (f.solve (List.ofFn b)).length = n := (f.backward_spec _).1
  refine List.ext_getElem (by rw [length, List.length_ofFn]) fun i hn hi => ?_
  rw [List.getElem_ofFn]
  unfold solution
  rw [List.getD_eq_getElem?_getD, List.getElem?_eq_getElem hi, Option.getD_some]

/-- The solution solves the equations, and nothing else does. -/
theorem Reduced.mulVec_eq_iff (h : Reduced A n f) (b y : Fin n → α) : A.mulVec y = b ↔ y = f.solution b := by
  have solves (b : Fin n → α) : A.mulVec (f.solution b) = b := by
    refine funext fun i => (h.solve (List.ofFn b) i).trans ?_
    rw [List.getD_eq_getElem?_getD, List.getElem?_ofFn, dif_pos i.isLt]
    rfl
  have injective : Function.Injective A.mulVec := by
    have surjective : Function.Surjective A.mulVec := fun b => ⟨_, solves b⟩
    exact Matrix.mulVec_injective_iff_isUnit.mpr (Matrix.mulVec_surjective_iff_isUnit.mp surjective)
  constructor
  · intro solution
    exact injective (solution.trans (solves b).symm)
  · rintro rfl
    exact solves b

theorem Reduced.det_ne_zero (h : Reduced A n f) : A.det ≠ 0 := by
  have injective : Function.Injective A.mulVec := fun x y same =>
    ((h.mulVec_eq_iff (A.mulVec y) x).mp same).trans ((h.mulVec_eq_iff (A.mulVec y) y).mp rfl).symm
  have unit := A.isUnit_iff_isUnit_det.mp (Matrix.mulVec_injective_iff_isUnit.mp injective)
  exact unit.ne_zero

/-! ## Matrices row by row -/

/-- The entries of a matrix, row after row. -/
def rowMajor {β : Type} (A : Matrix (Fin n) (Fin n) β) : List β := (List.ofFn fun i => List.ofFn (A i)).flatten

theorem entry_ofEntries_rowMajor (A : Matrix (Fin n) (Fin n) α) :
    (ofEntries (rowMajor A) : Factors α n).entry = A := by
  funext i j
  have square : ∀ row ∈ List.ofFn fun i => List.ofFn (A i), row.length = n := by
    intro row hrow
    obtain ⟨i, rfl⟩ := List.mem_ofFn.mp hrow
    exact List.length_ofFn
  unfold rowMajor
  rw [entry_ofEntries_flatten square List.length_ofFn]
  simp

/-! ## Calls -/

/-- What is asked of an object that holds factors. -/
inductive Call (α : Type) where
  | factor (entries : List α)
  | solve (b : List α)

/-- What it answers. -/
inductive Answer (α : Type) where
  | done
  | solution (x : List α)
  | failed (error : Error)
deriving DecidableEq

/-- Answers a call. Factoring takes the place of what was there before, also where it gives up. -/
def answer (f : Factors α n) : Call α → Factors α n × Answer α
  | .factor entries =>
    match (factorExactly entries : Except Error (Factors α n × Option Error)) with
    | .ok (g, none) => (g, .done)
    | .ok (g, some e) => (g, .failed e)
    | .error e => (f, .failed e)
  | .solve b =>
    match f.solveExactly b with
    | .ok x => (f, .solution x)
    | .error e => (f, .failed e)

/-- What an object holds after some calls. Before the first it holds zeros. -/
def afterCalls (calls : List (Call α)) : Factors α n := calls.foldl (fun f call => (f.answer call).1) (ofEntries [])

/-- Factoring is done where every column has a pivot, whatever was there before. -/
theorem answer_factor_eq_done {f g : Factors α n} {entries : List α} :
    f.answer (.factor entries) = (g, .done) ↔ entries.length = n * n ∧ factor entries = (g, none) := by
  unfold answer factorExactly
  dsimp only
  by_cases size : entries.length = n * n
  · rw [if_pos size]
    rcases factor entries with ⟨g', _ | e⟩
    · simp [size]
    · simp
  · rw [if_neg size]
    simp [size]

theorem answer_solve (f : Factors α n) {b : List α} (size : n ≤ b.length) :
    f.answer (.solve b) = (f, .solution (f.solve b)) := by
  have solved : f.solveExactly b = .ok (f.solve b) := if_pos size
  unfold answer
  dsimp only
  rw [solved]

/-! ## Factoring is correct -/

/-- The factors are those of the matrix with the rows in the order of `pivots`, and multipliers are small. -/
structure AreFactorsOf [LinearOrder α] (f : Factors α n) (A : Matrix (Fin n) (Fin n) α) : Prop where
  permutation : Function.Bijective f.pivots.get
  product : A.submatrix f.pivots.get id = f.lowerTriangle * f.upperTriangle
  multipliers : ∀ i j, j < i → |f.entry i j| ≤ 1
  diagonal : ∀ i, f.entry i i ≠ 0

variable [LinearOrder α] [StrictlyOrderedScalar α]

/-- Whatever calls there were before, a matrix for which factoring is done is regular, its factors are held, and they
solve every system of equations with it. -/
theorem areFactorsOf_of_done (calls : List (Call α)) (A : Matrix (Fin n) (Fin n) α) (f : Factors α n)
    (done : (afterCalls calls).answer (.factor (rowMajor A)) = (f, .done)) :
    f.AreFactorsOf A ∧ A.det ≠ 0 ∧
      ∀ b : Fin n → α, ∃ x : Fin n → α,
        f.answer (.solve (List.ofFn b)) = (f, .solution (List.ofFn x)) ∧ ∀ y, A.mulVec y = b ↔ y = x := by
  obtain ⟨-, factored⟩ := answer_factor_eq_done.mp done
  have found : (factor (rowMajor A) : Factors α n × Option Error).2 = none := by rw [factored]
  have reduced := reduced_factor found
  have small := hasSmallMultipliers_factor found
  rw [entry_ofEntries_rowMajor, factored] at reduced
  rw [factored] at small
  refine ⟨⟨?_, reduced.submatrix_eq, fun i j => small i j j.isLt, fun i => reduced.diagonal i i.isLt⟩,
    reduced.det_ne_zero, fun b => ⟨f.solution b, ?_, reduced.mulVec_eq_iff b⟩⟩
  · exact Finite.injective_iff_bijective.mp reduced.permuted
  · rw [ofFn_solution]
    exact answer_solve f List.length_ofFn.ge

/-- A matrix of which the rows have to be exchanged twice. -/
def crossed : Matrix (Fin 3) (Fin 3) ℚ := !![0, 2, 1; 1, 1, 0; 3, 0, 1]

/-- A matrix that is not regular, a right-hand side, and a matrix of which entries are missing. -/
def earlierCalls : List (Call ℚ) := [.factor [1, 2, 3, 2, 4, 6, 1, 1, 1], .solve [1, 2, 3], .factor [1, 2]]

theorem areFactorsOf_of_done_crossed :
    ∃ f : Factors ℚ 3, (afterCalls earlierCalls).answer (.factor (rowMajor crossed)) = (f, .done) ∧
      f.AreFactorsOf crossed ∧ crossed.det ≠ 0 ∧
        ∃ x : Fin 3 → ℚ, f.answer (.solve (List.ofFn ![5, 3, 6])) = (f, .solution (List.ofFn x)) ∧
          ∀ y, crossed.mulVec y = ![5, 3, 6] ↔ y = x := by
  have done : ((afterCalls earlierCalls : Factors ℚ 3).answer (.factor (rowMajor crossed))).2 = .done := by
    decide +kernel
  obtain ⟨factors, regular, solves⟩ := areFactorsOf_of_done earlierCalls crossed _ (Prod.ext rfl done)
  exact ⟨_, Prod.ext rfl done, factors, regular, solves ![5, 3, 6]⟩

end Factors

end AnalogCircuit
