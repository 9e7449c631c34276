import AnalogCircuit.Expr.Basic
/-!
# The value of an expression

Evaluation by recursion on the tree. It has no value where a symbol has none, where an unknown function,
a derivative or an integral occurs, and where a built-in function has the wrong number of arguments; of a
choice only the branch that is taken needs a value.
-/

namespace AnalogCircuit.Expr

variable {α : Type} [Scalar α]

mutual

/-- The value of an expression, with the values of its symbols given by `lookup`. -/
def evaluate (lookup : Symbol → Option α) : Expr α → Option α
  | num v => some v
  | sym s => lookup s
  | sum ts => (evaluateList lookup ts).map fun vs => vs.foldl (· + ·) 0
  | product fs => (evaluateList lookup fs).map fun vs => vs.foldl (· * ·) 1
  | power b e => do
    let x ← evaluate lookup b
    let y ← evaluate lookup e
    return Scalar.pow x y
  | call f args => (evaluateList lookup args).bind (Scalar.applyBuiltin f)
  | compare c a b => do
    let x ← evaluate lookup a
    let y ← evaluate lookup b
    return Scalar.ofBool (c.holds x y)
  | select c a b => do
    let v ← evaluate lookup c
    if Scalar.isZero v then evaluate lookup b else evaluate lookup a
  | apply _ _ | derivative _ _ | integral _ _ => none

/-- The values of several expressions, if all have one. -/
def evaluateList (lookup : Symbol → Option α) : List (Expr α) → Option (List α)
  | [] => some []
  | e :: es => do
    let v ← evaluate lookup e
    let vs ← evaluateList lookup es
    return v :: vs

end

end AnalogCircuit.Expr
