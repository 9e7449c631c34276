import AnalogCircuit.Expr.Build
import AnalogCircuit.Expr.Text
/-!
# Equations

Two expressions that are to be equal.
-/

namespace AnalogCircuit

/-- An equation between two expressions. -/
structure Equation (α : Type) where
  lhs : Expr α
  rhs : Expr α

namespace Equation

variable {α : Type} [Scalar α]

/-- The difference of the two sides, which has to vanish. -/
def residual (q : Equation α) : Expr α := q.lhs - q.rhs

/-- The written form. -/
def text (q : Equation α) : String := q.lhs.text ++ " == " ++ q.rhs.text

end Equation

end AnalogCircuit
