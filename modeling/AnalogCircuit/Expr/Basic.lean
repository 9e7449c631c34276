import AnalogCircuit.Scalar.Basic
import AnalogCircuit.Symbol
/-!
# Expressions

A small algebra: enough to state the equations of a circuit, to discretize them, to differentiate them
and to compile them. The constructors of the type build any tree; the functions of
`AnalogCircuit.Expr.Build` build canonical ones.
-/

namespace AnalogCircuit

/-! ## Comparisons -/

/-- A relational operator; a comparison has the value one or zero. -/
inductive Comparison where
  | eq | ne | lt | le | gt | ge
deriving DecidableEq, Repr

namespace Comparison

/-- The position among the operators. -/
def rank (c : Comparison) : Nat := c.ctorIdx

/-- The written form. -/
def sign : Comparison → String
  | eq => "==" | ne => "!=" | lt => "<" | le => "<=" | gt => ">" | ge => ">="

/-- Whether two numbers are so related. -/
def holds {α : Type} [Scalar α] : Comparison → α → α → Bool
  | eq, a, b => Scalar.eq a b
  | ne, a, b => !Scalar.eq a b
  | lt, a, b => Scalar.lt a b
  | le, a, b => Scalar.le a b
  | gt, a, b => Scalar.lt b a
  | ge, a, b => Scalar.le b a

end Comparison

/-! ## Terms -/

/-- A symbolic term over the numbers `α`. -/
inductive Expr (α : Type) where
  | num (value : α)
  | sym (symbol : Symbol)
  | sum (terms : List (Expr α))
  | product (factors : List (Expr α))
  | power (base exponent : Expr α)
  | call (function : Builtin) (arguments : List (Expr α))
  /-- A function that is not built in. -/
  | apply (name : String) (arguments : List (Expr α))
  | compare (operator : Comparison) (left right : Expr α)
  /-- The second operand where the first is not zero, else the third. -/
  | select (condition positive negative : Expr α)
  /-- The derivative of the operand with respect to the time. -/
  | derivative (operand : Expr α) (time : Symbol)
  /-- The running integral of the operand over the time. -/
  | integral (operand : Expr α) (time : Symbol)

namespace Expr

variable {α : Type}

instance [Inhabited α] : Inhabited (Expr α) := ⟨num default⟩

/-- The constant zero. -/
def zero [Scalar α] : Expr α := num 0

/-- The constant one. -/
def one [Scalar α] : Expr α := num 1

/-- The quantity `name` at the current sample. -/
def named (name : String) : Expr α := sym (Symbol.named name)

/-- The value of a constant. -/
def constant? : Expr α → Option α
  | num v => some v
  | _ => none

/-- The symbol of an expression that is one. -/
def symbol? : Expr α → Option Symbol
  | sym s => some s
  | _ => none

/-- The constant zero, of either sign. -/
def isZero [Scalar α] : Expr α → Bool
  | num v => Scalar.isZero v
  | _ => false

/-- The constant one. -/
def isOne [Scalar α] : Expr α → Bool
  | num v => Scalar.isOne v
  | _ => false

/-- The direct parts of an expression. -/
def children : Expr α → List (Expr α)
  | num _ | sym _ => []
  | sum ts | product ts | call _ ts | apply _ ts => ts
  | power a b | compare _ a b => [a, b]
  | select c a b => [c, a, b]
  | derivative x _ | integral x _ => [x]

/-- The position of a kind of node among the kinds; it orders expressions of different kinds. -/
def rank : Expr α → Nat
  | num _ => 0
  | sym _ => 1
  | sum _ => 2
  | product _ => 3
  | power _ _ => 4
  | call _ _ => 5
  | apply _ _ => 6
  | compare _ _ _ => 7
  | select _ _ _ => 8
  | derivative _ _ => 9
  | integral _ _ => 10

/-! ## Size -/

mutual

/-- The number of nodes. -/
def size : Expr α → Nat
  | num _ | sym _ => 1
  | sum ts | product ts | call _ ts | apply _ ts => 1 + sizeList ts
  | power a b | compare _ a b => 1 + (a.size + b.size)
  | select c a b => 1 + (c.size + a.size + b.size)
  | derivative x _ | integral x _ => 1 + x.size

/-- The number of nodes of several expressions. -/
def sizeList : List (Expr α) → Nat
  | [] => 0
  | e :: es => e.size + sizeList es

end

theorem size_pos (e : Expr α) : 0 < e.size := by
  cases e <;> simp only [size] <;> omega

end Expr

end AnalogCircuit
