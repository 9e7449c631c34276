import AnalogCircuit.Error
import AnalogCircuit.Expr.Derivative
import AnalogCircuit.Expr.Evaluate
import AnalogCircuit.Expr.Text
/-!
# Linear and nonlinear unknowns

A system of residuals, each to be zero, is split in two. An unknown is linear if every partial
derivative by it is free of unknowns. The rows whose partial derivatives are all free of unknowns are
used to eliminate linear unknowns, one after the other, by Gaussian elimination on expressions; pivots
are chosen by their size at nominal values. What cannot be eliminated is left for iteration, with all
eliminated unknowns substituted away.
-/

namespace AnalogCircuit

variable {α : Type} [Scalar α]

/-- An unknown and the expression whose value it takes. -/
structure Assignment (α : Type) where
  unknown : Symbol
  value : Expr α

/-- A system split in two. -/
structure Partition (α : Type) where
  /-- Assignments in the order of evaluation. -/
  assignments : List (Assignment α)
  /-- The unknowns that are left for iteration. -/
  iterated : List Symbol
  /-- As many residuals, in the iterated unknowns only. -/
  residuals : List (Expr α)

namespace Partition

/-! ## Linearity -/

/-- The unknowns in which a residual is not linear. -/
def nonlinearIn (unknowns : List Symbol) (r : Expr α) : List Symbol :=
  unknowns.filter fun u => r.contains u && (r.diff u).dependsOn (unknowns.contains ·)

/-! ## Pivots -/

/-- How well a row serves to solve for an unknown: the size of its coefficient at nominal values, zero
if the size is not known, and nothing if the coefficient vanishes. -/
def score? (nominal : Symbol → Option α) (u : Symbol) (r : Expr α) : Option α :=
  if r.contains u then
    let coefficient := r.diff u
    if coefficient.isZero then none
    else match coefficient.evaluate nominal with
      | some v =>
        if Scalar.isZero v then none
        else if Scalar.isFinite v then some (Scalar.abs v)
        else some 0
      | none => some 0
  else none

/-- The first of the best rows, and its place. -/
def pivot? (nominal : Symbol → Option α) (u : Symbol) (rows : List (Expr α)) :
    Option (Nat × Expr α) :=
  let better (best : Option (α × Nat × Expr α)) (row : Expr α × Nat) :
      Option (α × Nat × Expr α) :=
    match score? nominal u row.1, best with
    | some s, some (t, kept) => if Scalar.lt t s then some (s, row.2, row.1) else some (t, kept)
    | some s, none => some (s, row.2, row.1)
    | none, best => best
  (rows.zipIdx.foldl better none).map (·.2)

/-! ## Elimination -/

/-- The solution of a linear row for an unknown. -/
def solveFor (u : Symbol) (row : Expr α) : Expr α := -(row.replace u .zero) / row.diff u

/-- Replaces an unknown where it occurs. -/
def replaceIn (u : Symbol) (value : Expr α) (r : Expr α) : Expr α :=
  if r.contains u then r.replace u value else r

/-- The state of an elimination. -/
structure Elimination (α : Type) where
  /-- The linear rows that are left. -/
  rows : List (Expr α)
  /-- The unknowns eliminated so far, in order; a value may use later ones. -/
  eliminated : List (Assignment α)
  /-- The linear unknowns for which no row was left. -/
  left : List Symbol

/-- Eliminates an unknown, if there is a row to do it with. -/
def Elimination.step (nominal : Symbol → Option α) (e : Elimination α) (u : Symbol) :
    Elimination α :=
  match pivot? nominal u e.rows with
  | none => { e with left := e.left ++ [u] }
  | some (i, row) =>
    let value := solveFor u row
    { e with
      rows := (e.rows.eraseIdx i).map (replaceIn u value)
      eliminated := e.eliminated ++ [⟨u, value⟩] }

/-- Refuses a row that constrains no unknown. -/
def requireUnknown (unknowns : List Symbol) (r : Expr α) : Except Error Unit :=
  if unknowns.all fun u => (r.diff u).isZero then
    .error (.singularSystem s!"equation reduces to {r.text} == 0")
  else .ok ()

/-- Splits residuals in some unknowns, as many as there are unknowns; `nominal` gives the values by which
pivots are compared. -/
def ofResiduals (unknowns : List Symbol) (residuals : List (Expr α))
    (nominal : Symbol → Option α) : Except Error (Partition α) := do
  if residuals.length ≠ unknowns.length then
    throw (.singularSystem
      s!"{residuals.length} equations for {unknowns.length} unknowns after discretization")
  let rows := residuals.map fun r => (r, nonlinearIn unknowns r)
  let nonlinear := rows.flatMap (·.2)
  let (linearRows, nonlinearRows) := rows.partition (·.2.isEmpty)
  let e := (unknowns.filter fun u => !nonlinear.contains u).foldl (Elimination.step nominal)
    ⟨linearRows.map (·.1), [], []⟩
  e.rows.forM (requireUnknown unknowns)
  let residuals := (nonlinearRows.map (·.1) ++ e.rows).map fun r =>
    e.eliminated.foldl (fun r a => replaceIn a.unknown a.value r) r
  let iterated := unknowns.filter fun u => nonlinear.contains u || e.left.contains u
  if residuals.length ≠ iterated.length then
    throw (.singularSystem
      s!"{residuals.length} residual equations for {iterated.length} iterated unknowns")
  return { assignments := e.eliminated.reverse, iterated, residuals }

end Partition

end AnalogCircuit
