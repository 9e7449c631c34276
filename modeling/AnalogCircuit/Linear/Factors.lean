import AnalogCircuit.Error
import AnalogCircuit.Scalar.Basic
/-!
# Triangular factors

A square matrix is factored, after a permutation of its rows, into a lower triangle with ones on the
diagonal and an upper triangle; both are stored in one matrix. The pivot of a column is its largest
entry on or below the diagonal. Solving substitutes forward and then backward.

All loops run over the rows or columns of the matrix.
-/

namespace AnalogCircuit

/-- A matrix that is factored, or partly factored if a column had no pivot. -/
structure Factors (α : Type) (n : Nat) where
  /-- The multipliers below the diagonal, and the upper triangle. -/
  rows : Vector (Vector α n) n
  /-- The row of the given matrix from which each row comes. -/
  pivots : Vector (Fin n) n

namespace Factors

variable {α : Type} [Scalar α] {n : Nat}

/-- The matrix whose rows follow one another in a list. -/
def ofEntries (entries : List α) : Factors α n :=
  let a := entries.toArray
  ⟨.ofFn fun i => .ofFn fun j => a.getD (i.val * n + j.val) 0, .ofFn id⟩

/-- An entry. -/
def entry (f : Factors α n) (i j : Fin n) : α := (f.rows.get i).get j

/-! ## Factoring -/

/-- The smallest size of a pivot. -/
def smallestPivot : α := 1e-15

/-- The first row from `k` on whose entry in column `k` is the largest in size. -/
def pivotRow (f : Factors α n) (k : Fin n) : Fin n :=
  (List.finRange n).foldl (fun m i =>
    if k < i ∧ Scalar.lt (Scalar.abs (f.entry m k)) (Scalar.abs (f.entry i k)) then i else m) k

/-- Exchanges two rows. -/
def exchange (f : Factors α n) (k m : Fin n) : Factors α n :=
  ⟨f.rows.swap k m, f.pivots.swap k m⟩

/-- Subtracts multiples of row `k` from the rows below it so that column `k` vanishes there, and keeps
the multipliers in its place. -/
def clearColumn (f : Factors α n) (k : Fin n) : Factors α n :=
  let pivot := f.entry k k
  let rows := Vector.ofFn fun i =>
    if k < i then
      let multiplier := f.entry i k / pivot
      Vector.ofFn fun j =>
        if j < k then f.entry i j
        else if j = k then multiplier
        else f.entry i j - multiplier * f.entry k j
    else f.rows.get i
  { f with rows }

/-- Factors some columns, up to the first that has no pivot. -/
def factorColumns (f : Factors α n) : List (Fin n) → Factors α n × Option Error
  | [] => (f, none)
  | k :: ks =>
    let m := f.pivotRow k
    if Scalar.le smallestPivot (Scalar.abs (f.entry m k)) then
      ((f.exchange k m).clearColumn k).factorColumns ks
    else (f, some .singularMatrix)

/-- Factors the matrix whose rows follow one another in a list. -/
def factor (entries : List α) : Factors α n × Option Error :=
  (ofEntries entries).factorColumns (List.finRange n)

/-- Factors a matrix of which all entries are given, and no others. -/
def factorExactly (entries : List α) : Except Error (Factors α n × Option Error) :=
  if entries.length = n * n then .ok (factor entries)
  else .error (.entryCount (n * n) entries.length)

/-! ## Solving -/

/-- Subtracts from a number the products of coefficients and values. -/
def reduce (b : α) (coefficients values : List α) : α :=
  (coefficients.zip values).foldl (fun s (a, x) => s - a * x) b

/-- The solution for the lower triangle: each value from those before it. -/
def forward (f : Factors α n) (b : List α) : List α :=
  let b := b.toArray
  (List.finRange n).foldl (fun ys i =>
    ys ++ [reduce (b.getD (f.pivots.get i).val 0) (f.rows.get i).toList ys]) []

/-- The solution for the upper triangle: each value from those behind it. -/
def backward (f : Factors α n) (y : List α) : List α :=
  let y := y.toArray
  (List.finRange n).foldr (fun i xs =>
    reduce (y.getD i.val 0) ((f.rows.get i).toList.drop (i.val + 1)) xs / f.entry i i :: xs) []

/-- The solution of the linear equations with the factored matrix and the right-hand side `b`. -/
def solve (f : Factors α n) (b : List α) : List α := f.backward (f.forward b)

/-- The solution for a right-hand side that has an entry for every row. -/
def solveExactly (f : Factors α n) (b : List α) : Except Error (List α) :=
  if n ≤ b.length then .ok (f.solve b) else .error (.entryCount n b.length)

end Factors

end AnalogCircuit
