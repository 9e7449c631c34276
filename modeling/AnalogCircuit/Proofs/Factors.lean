import Mathlib.Algebra.Order.Field.Basic
import Mathlib.LinearAlgebra.Matrix.NonsingularInverse
import Mathlib.Tactic.Positivity
import AnalogCircuit.Proofs.Exact
import AnalogCircuit.Linear.Factors
/-!
# Triangular factors solve

If every column has a pivot, the factors give the solution of the linear equations exactly. Factoring a column changes
the matrix that is stored, but not what it means: for values of the unknowns, a row of the given matrix gives what the
multipliers of its row make of the finished rows, plus what the rest of its row makes of the unknowns. In the end
forward substitution finds what the finished rows give, and backward substitution the unknowns.
-/

namespace AnalogCircuit

/-- Comparison and magnitude are those of an ordered field. -/
class OrderedScalar (α : Type) [ExactScalar α] [LinearOrder α] : Prop extends IsStrictOrderedRing α where
  le_iff {a b : α} : Scalar.le a b = true ↔ a ≤ b
  abs_eq (a : α) : Scalar.abs a = |a|

instance : OrderedScalar ℚ where
  le_iff := decide_eq_true_iff
  abs_eq _ := rfl

namespace Factors

variable {α : Type} {n : Nat}

/-! ## Pivots -/

/-- A pivot is not zero. -/
theorem ne_zero_of_pivot [ExactScalar α] [LinearOrder α] [OrderedScalar α] {a : α}
    (h : Scalar.le smallestPivot (Scalar.abs a) = true) : a ≠ 0 := by
  rw [OrderedScalar.le_iff, OrderedScalar.abs_eq] at h
  have positive : (0 : α) < smallestPivot := by
    refine lt_of_lt_of_eq ?_ (ExactScalar.ofDecimal_eq 1 (-15)).symm
    positivity
  exact abs_pos.mp (positive.trans_le h)

/-- The row of a pivot is on or below the diagonal. -/
theorem le_pivotRow [Scalar α] (f : Factors α n) (k : Fin n) : k ≤ f.pivotRow k := by
  unfold pivotRow
  have fold (is : List (Fin n)) (m : Fin n) (h : k ≤ m) :
      k ≤ is.foldl (fun m i => if k < i ∧ Scalar.lt (Scalar.abs (f.entry m k)) (Scalar.abs (f.entry i k))
        then i else m) m := by
    induction is generalizing m with
    | nil => exact h
    | cons i is ih =>
      refine ih _ ?_
      dsimp only
      split
      · next found => exact found.1.le
      · exact h
  exact fold _ k le_rfl

/-! ## Entries -/

theorem get_swap {β : Type} (v : Vector β n) (k m i : Fin n) :
    (v.swap k m k.isLt m.isLt).get i = v.get (Equiv.swap k m i) := by
  change getElem (v.swap k m k.isLt m.isLt) i.val i.isLt = _
  rw [Vector.getElem_swap]
  by_cases first : i = k
  · subst first
    rw [if_pos rfl, Equiv.swap_apply_left]
    rfl
  rw [if_neg fun same => first (Fin.ext same)]
  by_cases second : i = m
  · subst second
    rw [if_pos rfl, Equiv.swap_apply_right]
    rfl
  · rw [if_neg fun same => second (Fin.ext same), Equiv.swap_apply_of_ne_of_ne first second]
    rfl

theorem entry_exchange (f : Factors α n) (k m i j : Fin n) :
    (f.exchange k m).entry i j = f.entry (Equiv.swap k m i) j :=
  congrArg (·.get j) (get_swap f.rows k m i)

theorem entry_clearColumn [Scalar α] (f : Factors α n) (k i j : Fin n) :
    (f.clearColumn k).entry i j =
      if k < i then
        if j < k then f.entry i j
        else if j = k then f.entry i k / f.entry k k
        else f.entry i j - f.entry i k / f.entry k k * f.entry k j
      else f.entry i j := by
  change (f.clearColumn k).rows[i.val][j.val] = _
  unfold clearColumn
  rw [Vector.getElem_ofFn]
  split
  · rw [Vector.getElem_ofFn]
  · rfl

/-! ## The meaning of partly factored matrices -/

section

variable [ExactScalar α]

/-- What a finished row gives: its part on and right of the diagonal. -/
def upper (f : Factors α n) (x : Fin n → α) (i : Fin n) : α := ∑ j, if i ≤ j then f.entry i j * x j else 0

/-- What row `i` of the given matrix gives, if `k` columns are finished: the multipliers of the row belong to finished
rows, all other entries to the unknowns. -/
def product (f : Factors α n) (k : Nat) (x : Fin n → α) (i : Fin n) : α :=
  ∑ j, f.entry i j * if j.val < min i.val k then f.upper x j else x j

theorem upper_congr {f g : Factors α n} {i i' : Fin n} (same : ∀ j, f.entry i j = g.entry i' j)
    (x : Fin n → α) (eq : i = i') : f.upper x i = g.upper x i' := by
  subst eq
  unfold upper
  simp only [same]

/-- Exchanging two rows that are not finished exchanges what they give. -/
theorem product_exchange (f : Factors α n) {k m : Fin n} (le : k ≤ m) (x : Fin n → α) (i : Fin n) :
    (f.exchange k m).product k x i = f.product k x (Equiv.swap k m i) := by
  have finished {j : Fin n} (hj : j < k) : Equiv.swap k m j = j :=
    Equiv.swap_apply_of_ne_of_ne hj.ne (hj.trans_le le).ne
  have depth : min (Equiv.swap k m i).val k.val = min i.val k.val := by
    rw [Equiv.swap_apply_def]
    have := Fin.le_def.mp le
    split_ifs with h₁ h₂
    · subst h₁; omega
    · subst h₂; omega
    · rfl
  unfold product
  rw [depth]
  refine Finset.sum_congr rfl fun j _ => ?_
  rw [entry_exchange]
  congr 1
  split
  · next low =>
    have hj : j < k := Fin.lt_def.mpr (lt_of_lt_of_le low (min_le_right _ _))
    refine upper_congr (fun j' => ?_) x rfl
    rw [entry_exchange, finished hj]
  · rfl

/-- Clearing a column does not change the rows that are finished. -/
theorem entry_clearColumn_of_le (f : Factors α n) {k l : Fin n} (hl : l ≤ k) (j : Fin n) :
    (f.clearColumn k).entry l j = f.entry l j := by
  rw [entry_clearColumn, if_neg (not_lt_of_ge hl)]

theorem upper_clearColumn (f : Factors α n) {k l : Fin n} (hl : l ≤ k) (x : Fin n → α) :
    (f.clearColumn k).upper x l = f.upper x l :=
  upper_congr (f.entry_clearColumn_of_le hl) x rfl

/-- What an entry below the pivot gives: the multiplier gives a multiple of the finished row, which the entries on the
right of it have lost. -/
theorem term_clearColumn (f : Factors α n) {k i : Fin n} (pivot : f.entry k k ≠ 0) (lt : k < i) (x : Fin n → α)
    (j : Fin n) : (f.clearColumn k).entry i j *
      (if j.val < min i.val (k.val + 1) then (f.clearColumn k).upper x j else x j) =
        f.entry i j * (if j.val < min i.val k.val then f.upper x j else x j) +
          ((if j = k then f.entry i k / f.entry k k * f.upper x k else 0) -
            f.entry i k / f.entry k k * if k ≤ j then f.entry k j * x j else 0) := by
  have hi := Fin.lt_def.mp lt
  have low : min i.val (k.val + 1) = k.val + 1 := by omega
  have low' : min i.val k.val = k.val := by omega
  rw [low, low', entry_clearColumn, if_pos lt]
  rcases lt_trichotomy j k with before | same | after
  · rw [if_pos before, if_pos (Nat.lt_succ_of_lt before), if_pos (Fin.lt_def.mp before),
      upper_clearColumn f before.le, if_neg before.ne, if_neg (not_le_of_gt before)]
    ring
  · subst same
    rw [if_neg (lt_irrefl j), if_pos rfl, if_pos (Nat.lt_succ_self _), if_neg (lt_irrefl j.val),
      upper_clearColumn f le_rfl, if_pos rfl, if_pos le_rfl]
    have multiplier : f.entry i j / f.entry j j * f.entry j j = f.entry i j := div_mul_cancel₀ _ pivot
    linear_combination x j * multiplier
  · rw [if_neg (not_lt_of_gt after), if_neg after.ne', if_neg (by omega), if_neg (by omega), if_neg after.ne',
      if_pos after.le]
    ring

/-- Clearing a column leaves what every row gives. -/
theorem product_clearColumn (f : Factors α n) {k : Fin n} (pivot : f.entry k k ≠ 0) (x : Fin n → α)
    (i : Fin n) : (f.clearColumn k).product (k + 1) x i = f.product k x i := by
  unfold product
  rcases le_or_gt i k with le | lt
  · -- a finished row does not change, nor do those above it
    have depth : min i.val (k.val + 1) = min i.val k.val := by omega
    rw [depth]
    refine Finset.sum_congr rfl fun j _ => ?_
    rw [f.entry_clearColumn_of_le le]
    split
    · next low => rw [upper_clearColumn f (Fin.le_def.mpr (by omega))]
    · rfl
  · -- the multiples of the finished row cancel
    simp only [f.term_clearColumn pivot lt]
    rw [Finset.sum_add_distrib, Finset.sum_sub_distrib, ← Finset.mul_sum, Finset.sum_ite_eq' Finset.univ k,
      if_pos (Finset.mem_univ k)]
    change _ + (f.entry i k / f.entry k k * f.upper x k - f.entry i k / f.entry k k * f.upper x k) = _
    rw [sub_self, add_zero]

/-- A finished row has an entry on the diagonal, and others right of it. -/
theorem upper_eq (f : Factors α n) (x : Fin n → α) (i : Fin n) :
    f.upper x i = x i * f.entry i i + ∑ j, if i < j then f.entry i j * x j else 0 := by
  have split (j : Fin n) : (if i ≤ j then f.entry i j * x j else 0) =
      (if j = i then x i * f.entry i i else 0) + if i < j then f.entry i j * x j else 0 := by
    rcases lt_trichotomy j i with before | same | after
    · rw [if_neg (not_le_of_gt before), if_neg before.ne, if_neg (not_lt_of_gt before), add_zero]
    · subst same
      rw [if_pos le_rfl, if_pos rfl, if_neg (lt_irrefl j), add_zero, mul_comm]
    · rw [if_pos after.le, if_neg after.ne', if_pos after, zero_add]
  unfold upper
  simp only [split]
  rw [Finset.sum_add_distrib, Finset.sum_ite_eq' Finset.univ i, if_pos (Finset.mem_univ i)]

/-- When all columns are finished, a row has multipliers, and behind them its own finished row. -/
theorem product_eq (f : Factors α n) (x : Fin n → α) (i : Fin n) :
    f.product n x i = (∑ j, if j < i then f.entry i j * f.upper x j else 0) + f.upper x i := by
  have split (j : Fin n) : f.entry i j * (if j.val < min i.val n then f.upper x j else x j) =
      (if j < i then f.entry i j * f.upper x j else 0) + if i ≤ j then f.entry i j * x j else 0 := by
    rw [min_eq_left i.isLt.le]
    rcases lt_or_ge j i with before | behind
    · rw [if_pos (Fin.lt_def.mp before), if_pos before, if_neg (not_le_of_gt before), add_zero]
    · rw [if_neg (not_lt_of_ge (Fin.le_def.mp behind)), if_neg (not_lt_of_ge behind), if_pos behind, zero_add]
  unfold product
  simp only [split]
  exact Finset.sum_add_distrib

/-! ## Factoring -/

/-- After `k` columns the factors mean the given matrix, with its rows in another order. -/
structure Reduced (A : Fin n → Fin n → α) (k : Nat) (f : Factors α n) : Prop where
  permuted : Function.Injective f.pivots.get
  product : ∀ x i, ∑ j, A (f.pivots.get i) j * x j = f.product k x i
  diagonal : ∀ i : Fin n, i.val < k → f.entry i i ≠ 0

variable {A : Fin n → Fin n → α}

theorem reduced_ofEntries (entries : List α) :
    Reduced (ofEntries entries : Factors α n).entry 0 (ofEntries entries) := by
  have get (i : Fin n) : (ofEntries entries : Factors α n).pivots.get i = i :=
    Vector.getElem_ofFn i.isLt
  refine ⟨fun i j same => ?_, fun x i => ?_, fun i hi => absurd hi (Nat.not_lt_zero _)⟩
  · rwa [get, get] at same
  · rw [get]
    unfold product
    simp only [Nat.min_zero, Nat.not_lt_zero, if_false]

theorem Reduced.exchange {f : Factors α n} {k m : Fin n} (h : Reduced A k f) (le : k ≤ m) :
    Reduced A k (f.exchange k m) where
  permuted i j same := by
    have same : f.pivots.get (Equiv.swap k m i) = f.pivots.get (Equiv.swap k m j) := by
      rwa [← get_swap, ← get_swap]
    exact (Equiv.swap k m).injective (h.permuted same)
  product x i := by
    rw [product_exchange f le, ← h.product]
    exact congrArg (fun l => ∑ j, A l j * x j) (get_swap f.pivots k m i)
  diagonal i hi := by
    have low : i < k := hi
    rw [entry_exchange, Equiv.swap_apply_of_ne_of_ne low.ne (low.trans_le le).ne]
    exact h.diagonal i hi

theorem Reduced.clearColumn {f : Factors α n} {k : Fin n} (h : Reduced A k f) (pivot : f.entry k k ≠ 0) :
    Reduced A (k + 1) (f.clearColumn k) where
  permuted := h.permuted
  product x i := by
    rw [product_clearColumn f pivot]
    exact h.product x i
  diagonal i hi := by
    have le : i ≤ k := Fin.le_def.mpr (Nat.lt_succ_iff.mp hi)
    rw [entry_clearColumn, if_neg (not_lt_of_ge le)]
    rcases le.lt_or_eq with lt | rfl
    · exact h.diagonal i lt
    · exact pivot

/-- Whatever factoring one column keeps is so in the end, if every column has a pivot. -/
theorem factorColumns_induction {P : Nat → Factors α n → Prop}
    (step : ∀ (k : Fin n) (f : Factors α n), P k f →
      Scalar.le smallestPivot (Scalar.abs (f.entry (f.pivotRow k) k)) = true →
        P (k + 1) ((f.exchange k (f.pivotRow k)).clearColumn k))
    {f : Factors α n} {k d : Nat} (h : P k f) (left : n = k + d)
    (found : (f.factorColumns ((List.finRange n).drop k)).2 = none) :
    P n (f.factorColumns ((List.finRange n).drop k)).1 := by
  induction d generalizing f k with
  | zero =>
    have done : (List.finRange n).drop k = [] := List.drop_eq_nil_of_le (by rw [List.length_finRange]; omega)
    rw [done]
    exact left ▸ h
  | succ d ih =>
    have inside : k < n := by omega
    have column : (List.finRange n).drop k = ⟨k, inside⟩ :: (List.finRange n).drop (k + 1) := by
      rw [List.drop_eq_getElem_cons (by rwa [List.length_finRange]), List.getElem_finRange]
      rfl
    rw [column] at found ⊢
    unfold Factors.factorColumns at found ⊢
    dsimp only at found ⊢
    split at found
    · next pivot =>
      rw [if_pos pivot]
      exact ih (step ⟨k, inside⟩ f h pivot) (by omega) found
    · cases found

/-- What holds of the given matrix and is kept column by column holds of its factors. -/
theorem factor_induction {P : Nat → Factors α n → Prop} {entries : List α} (start : P 0 (ofEntries entries))
    (step : ∀ (k : Fin n) (f : Factors α n), P k f →
      Scalar.le smallestPivot (Scalar.abs (f.entry (f.pivotRow k) k)) = true →
        P (k + 1) ((f.exchange k (f.pivotRow k)).clearColumn k))
    (found : (factor entries : Factors α n × Option Error).2 = none) : P n (factor entries).1 :=
  factorColumns_induction (d := n) step start (Nat.zero_add n).symm found

section

variable [LinearOrder α] [OrderedScalar α]

/-- Factors of which every column has a pivot mean the given matrix. -/
theorem reduced_factor {entries : List α}
    (found : (factor entries : Factors α n × Option Error).2 = none) :
    Reduced (ofEntries entries : Factors α n).entry n (factor entries).1 := by
  refine factor_induction (reduced_ofEntries entries) (fun k f reduced pivot => ?_) found
  refine (reduced.exchange (f.le_pivotRow k)).clearColumn ?_
  rw [entry_exchange, Equiv.swap_apply_left]
  exact ne_zero_of_pivot pivot

end

/-! ## Substitution -/

/-- Subtracting products one after the other subtracts their sum. -/
theorem reduce_eq (b : α) (as xs : List α) : reduce b as xs = b - (as.zipWith (· * ·) xs).sum := by
  induction as generalizing b xs with
  | nil => exact (sub_zero b).symm
  | cons a as ih =>
    cases xs with
    | nil => exact (sub_zero b).symm
    | cons x xs =>
      have step : reduce b (a :: as) (x :: xs) = reduce (b - a * x) as xs := rfl
      rw [step, ih, List.zipWith_cons_cons, List.sum_cons]
      ring

/-- A list that grows at its end, each element found from those before it. -/
theorem foldl_append_spec {β γ : Type} (g : β → List γ → γ) (is : List β) (start : List γ) :
    ∃ ys, is.foldl (fun ys i => ys ++ [g i ys]) start = start ++ ys ∧ ys.length = is.length ∧
      ∀ k (hk : k < is.length) (hk' : k < ys.length), ys[k] = g is[k] (start ++ ys.take k) := by
  induction is generalizing start with
  | nil => exact ⟨[], (List.append_nil _).symm, rfl, fun k hk => absurd hk (Nat.not_lt_zero k)⟩
  | cons i is ih =>
    obtain ⟨ys, eq, length, each⟩ := ih (start ++ [g i start])
    refine ⟨g i start :: ys, ?_, congrArg (· + 1) length, fun k hk hk' => ?_⟩
    · rw [List.foldl_cons, eq, List.append_assoc]
      rfl
    · cases k with
      | zero => rw [List.take_zero, List.append_nil]; rfl
      | succ k =>
        rw [List.getElem_cons_succ, List.getElem_cons_succ, List.take_succ_cons,
          each k (Nat.lt_of_succ_lt_succ hk), List.append_assoc]
        rfl

/-- A list that grows at its front, each element found from those behind it. -/
theorem foldr_cons_spec {β γ : Type} (g : β → List γ → γ) (is : List β) :
    (is.foldr (fun i xs => g i xs :: xs) []).length = is.length ∧
      ∀ k (hk : k < is.length) (hk' : k < (is.foldr (fun i xs => g i xs :: xs) []).length),
        (is.foldr (fun i xs => g i xs :: xs) [])[k] =
          g is[k] ((is.foldr (fun i xs => g i xs :: xs) []).drop (k + 1)) := by
  induction is with
  | nil => exact ⟨rfl, fun k hk => absurd hk (Nat.not_lt_zero k)⟩
  | cons i is ih =>
    obtain ⟨length, each⟩ := ih
    refine ⟨congrArg (· + 1) length, fun k hk hk' => ?_⟩
    cases k with
    | zero => rfl
    | succ k => exact each k (Nat.lt_of_succ_lt_succ hk) (Nat.lt_of_succ_lt_succ hk')

/-- The products of two lists from some place on. -/
theorem sum_zipWith_drop (as xs : List α) (m : Nat) :
    ((as.drop m).zipWith (· * ·) (xs.drop m)).sum =
      ∑ j ∈ Finset.range as.length, if m ≤ j then as.getD j 0 * xs.getD j 0 else 0 := by
  induction as generalizing xs m with
  | nil => simp
  | cons a as ih =>
    rw [List.length_cons, Finset.sum_range_succ']
    cases xs with
    | nil => simp
    | cons x xs =>
      cases m with
      | zero =>
        have rest := ih xs 0
        simp only [List.drop_zero, Nat.zero_le, if_true] at rest
        simp only [List.drop_zero, List.zipWith_cons_cons, List.sum_cons, rest, Nat.zero_le, if_true,
          List.getD_cons_succ, List.getD_cons_zero]
        exact add_comm _ _
      | succ m =>
        rw [if_neg (Nat.not_succ_le_zero m), add_zero]
        simp only [List.drop_succ_cons, ih, Nat.succ_le_succ_iff, List.getD_cons_succ]

theorem sum_row_drop (v : Vector α n) (xs : List α) (m : Nat) :
    ((v.toList.drop m).zipWith (· * ·) (xs.drop m)).sum =
      ∑ j : Fin n, if m ≤ j.val then v.get j * xs.getD j 0 else 0 := by
  rw [sum_zipWith_drop, Vector.length_toList, Finset.sum_range]
  refine Finset.sum_congr rfl fun j _ => ?_
  have entry : v.toList.getD j 0 = v.get j := by
    rw [List.getD_eq_getElem?_getD, List.getElem?_eq_getElem (by rw [Vector.length_toList]; exact j.isLt)]
    exact Vector.getElem_toList _
  rw [entry]

omit [ExactScalar α] in
theorem getD_toArray (as : List α) (i : Nat) (a : α) : as.toArray.getD i a = as.getD i a := by
  rw [Array.getD_eq_getD_getElem?, List.getElem?_toArray, List.getD_eq_getElem?_getD]

/-- Forward substitution finds each value from those before it. -/
theorem forward_spec (f : Factors α n) (b : List α) :
    (f.forward b).length = n ∧ ∀ i : Fin n, (f.forward b).getD i 0 =
      b.getD (f.pivots.get i) 0 - ∑ j, if j < i then f.entry i j * (f.forward b).getD j 0 else 0 := by
  obtain ⟨ys, eq, length, each⟩ := foldl_append_spec
    (fun (i : Fin n) ys => reduce (b.toArray.getD (f.pivots.get i).val 0) (f.rows.get i).toList ys)
    (List.finRange n) []
  rw [List.nil_append] at eq
  have forward : f.forward b = ys := eq
  rw [List.length_finRange] at length
  refine ⟨forward ▸ length, fun i => ?_⟩
  have hi : i.val < ys.length := i.isLt.trans_eq length.symm
  have inside : i.val < (List.finRange n).length := i.isLt.trans_eq List.length_finRange.symm
  have column : (List.finRange n)[i.val] = i := List.getElem_finRange inside
  have step := each i.val inside hi
  rw [column, List.nil_append, reduce_eq] at step
  have front := sum_row_drop (f.rows.get i) (ys.take i) 0
  simp only [List.drop_zero, Nat.zero_le, if_true] at front
  rw [front, getD_toArray] at step
  rw [forward, List.getD_eq_getElem?_getD, List.getElem?_eq_getElem hi]
  refine step.trans (congrArg _ (Finset.sum_congr rfl fun j _ => ?_))
  rw [List.getD_eq_getElem?_getD, List.getElem?_take, List.getD_eq_getElem?_getD]
  change f.entry i j * _ = if j.val < i.val then _ else _
  split
  · rfl
  · exact mul_zero _

/-- Backward substitution finds each value from those behind it. -/
theorem backward_spec (f : Factors α n) (y : List α) :
    (f.backward y).length = n ∧ ∀ i : Fin n, (f.backward y).getD i 0 =
      (y.getD i 0 - ∑ j, if i < j then f.entry i j * (f.backward y).getD j 0 else 0) / f.entry i i := by
  obtain ⟨length, each⟩ := foldr_cons_spec (fun (i : Fin n) xs =>
    reduce (y.toArray.getD i.val 0) ((f.rows.get i).toList.drop (i.val + 1)) xs / f.entry i i)
    (List.finRange n)
  change (f.backward y).length = _ at length
  rw [List.length_finRange] at length
  refine ⟨length, fun i => ?_⟩
  have hi : i.val < (f.backward y).length := i.isLt.trans_eq length.symm
  have inside : i.val < (List.finRange n).length := i.isLt.trans_eq List.length_finRange.symm
  have column : (List.finRange n)[i.val] = i := List.getElem_finRange inside
  have step := each i.val inside hi
  rw [column, reduce_eq, getD_toArray] at step
  change (f.backward y)[i.val] = (y.getD i.val 0 -
    (((f.rows.get i).toList.drop (i.val + 1)).zipWith (· * ·) ((f.backward y).drop (i.val + 1))).sum) /
      f.entry i i at step
  rw [sum_row_drop] at step
  rw [List.getD_eq_getElem?_getD, List.getElem?_eq_getElem hi]
  exact step

variable {f : Factors α n}

/-- Of the solution, finished rows give what forward substitution has found. -/
theorem Reduced.upper_solve (h : Reduced A n f) (b : List α) (i : Fin n) :
    f.upper (fun j => (f.solve b).getD j 0) i = (f.forward b).getD i 0 := by
  have found := (f.backward_spec (f.forward b)).2 i
  rw [eq_div_iff (h.diagonal i i.isLt)] at found
  rw [upper_eq]
  change (f.backward (f.forward b)).getD i 0 * f.entry i i + _ = _
  rw [found]
  exact sub_add_cancel _ _

/-- The solution satisfies every equation. -/
theorem Reduced.solve (h : Reduced A n f) (b : List α) (i : Fin n) :
    ∑ j, A i j * (f.solve b).getD j 0 = b.getD i 0 := by
  -- every equation has become one of the rows
  obtain ⟨l, rfl⟩ := (Finite.injective_iff_surjective.mp h.permuted) i
  rw [h.product (fun j => (f.solve b).getD j 0), product_eq]
  simp only [h.upper_solve]
  rw [(f.forward_spec b).2 l]
  exact add_sub_cancel _ _

/-- A matrix that can be factored has no two columns alike. -/
theorem Reduced.column_injective (h : Reduced A n f) {j k : Fin n} (same : ∀ i, A i j = A i k) : j = k := by
  have surjective : Function.Surjective (Matrix.of A).mulVec := by
    intro b
    refine ⟨fun j => (f.solve (List.ofFn b)).getD j 0, funext fun i => (h.solve (List.ofFn b) i).trans ?_⟩
    simp
  have injective := Matrix.mulVec_injective_iff_isUnit.mpr (Matrix.mulVec_surjective_iff_isUnit.mp surjective)
  have columns : (Matrix.of A).mulVec (Pi.single j 1) = (Matrix.of A).mulVec (Pi.single k 1) := by
    rw [Matrix.mulVec_single_one, Matrix.mulVec_single_one]
    exact funext same
  by_contra other
  have value := congrFun (injective columns) j
  rw [Pi.single_eq_same, Pi.single_eq_of_ne other] at value
  exact one_ne_zero value

/-! ## Matrices given by their rows -/

/-- What the rows of a matrix give for values of the unknowns. -/
def applied (rows : List (List α)) (x : List α) : List α := rows.map fun row => (row.zipWith (· * ·) x).sum

omit [ExactScalar α] in
theorem getElem?_flatten {rows : List (List α)} (square : ∀ row ∈ rows, row.length = n) {i j : Nat} (hj : j < n) :
    rows.flatten[i * n + j]? = rows[i]?.bind (·[j]?) := by
  induction rows generalizing i with
  | nil => rfl
  | cons row rows ih =>
    obtain ⟨length, square⟩ := List.forall_mem_cons.mp square
    rw [List.flatten_cons]
    cases i with
    | zero =>
      rw [Nat.zero_mul, Nat.zero_add, List.getElem?_append_left (length ▸ hj)]
      rfl
    | succ i =>
      have shift : (i + 1) * n + j = row.length + (i * n + j) := by rw [length]; ring
      rw [shift, List.getElem?_append_right (Nat.le_add_right _ _), Nat.add_sub_cancel_left, ih square]
      rfl

variable {rows : List (List α)}

theorem entry_ofEntries_flatten (square : ∀ row ∈ rows, row.length = n) (length : rows.length = n)
    (i j : Fin n) : (ofEntries rows.flatten : Factors α n).entry i j = (rows[i.val]).getD j 0 := by
  have entry : (ofEntries rows.flatten : Factors α n).entry i j =
      rows.flatten.toArray.getD (i.val * n + j.val) 0 := by
    change (ofEntries rows.flatten : Factors α n).rows[i.val][j.val] = _
    unfold ofEntries
    rw [Vector.getElem_ofFn, Vector.getElem_ofFn]
  rw [entry, getD_toArray, List.getD_eq_getElem?_getD, getElem?_flatten square j.isLt,
    List.getElem?_eq_getElem (i.isLt.trans_eq length.symm), List.getD_eq_getElem?_getD]
  rfl

variable [LinearOrder α] [OrderedScalar α]

/-- The solution of the equations with a matrix that can be factored satisfies them. -/
theorem applied_solve (square : ∀ row ∈ rows, row.length = n) (length : rows.length = n) {b : List α}
    (size : b.length = n) (found : (factor rows.flatten : Factors α n × Option Error).2 = none) :
    applied rows ((factor rows.flatten : Factors α n × Option Error).1.solve b) = b := by
  have reduced := reduced_factor found
  refine List.ext_getElem ((List.length_map _).trans (length.trans size.symm)) fun i hi hb => ?_
  have inside : i < n := hb.trans_eq size
  have solved := reduced.solve b ⟨i, inside⟩
  simp only [entry_ofEntries_flatten square length] at solved
  have row := sum_zipWith_drop rows[i] ((factor rows.flatten : Factors α n × Option Error).1.solve b) 0
  simp only [List.drop_zero, Nat.zero_le, if_true] at row
  refine (List.getElem_map _).trans ?_
  rw [row, square _ (List.getElem_mem _), Finset.sum_range, solved, List.getD_eq_getElem?_getD,
    List.getElem?_eq_getElem hb]
  rfl

/-- No two columns of a matrix that can be factored are alike. -/
theorem eq_of_columns (square : ∀ row ∈ rows, row.length = n) (length : rows.length = n)
    (found : (factor rows.flatten : Factors α n × Option Error).2 = none) {j k : Nat} (hj : j < n) (hk : k < n)
    (same : ∀ row ∈ rows, row[j]? = row[k]?) : j = k := by
  refine Fin.mk.inj_iff.mp ((reduced_factor found).column_injective (j := ⟨j, hj⟩) (k := ⟨k, hk⟩) fun i => ?_)
  rw [entry_ofEntries_flatten square length, entry_ofEntries_flatten square length, List.getD_eq_getElem?_getD,
    List.getD_eq_getElem?_getD, same _ (List.getElem_mem _)]

end

end Factors

end AnalogCircuit
