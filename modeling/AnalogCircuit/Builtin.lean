/-!
# The built-in functions

The functions that expressions may call by name, their arities and the spellings under which they are
found. What they compute belongs to the arithmetic (`AnalogCircuit.Scalar.Basic`), how they are
differentiated to the expressions (`AnalogCircuit.Expr.Derivative`).
-/

namespace AnalogCircuit

/-- A built-in function. `log` is `log(x, base)`, `pow` is `pow(x, y)`. -/
inductive Builtin where
  | abs | sign | min | max
  | sin | cos | tan | sec | csc | cot
  | asin | acos | atan | asec | acsc | acot
  | sinh | cosh | tanh | sech | csch | coth
  | asinh | acosh | atanh | asech | acsch | acoth
  | sqrt | exp | ln | log | pow
  | floor | ceiling | round
deriving DecidableEq, Repr

namespace Builtin

/-- All built-in functions, in the order in which expressions sort them. -/
def all : List Builtin :=
  [abs, sign, min, max, sin, cos, tan, sec, csc, cot, asin, acos, atan, asec, acsc, acot,
   sinh, cosh, tanh, sech, csch, coth, asinh, acosh, atanh, asech, acsch, acoth,
   sqrt, exp, ln, log, pow, floor, ceiling, round]

/-- The position of a function in `all`. -/
def rank (f : Builtin) : Nat := f.ctorIdx

theorem all_rank : ∀ f : Builtin, all[f.rank]? = some f := by
  intro f; cases f <;> rfl

theorem rank_inj {f g : Builtin} (h : f.rank = g.rank) : f = g := by
  have := all_rank f
  rw [h, all_rank g] at this
  exact (Option.some.inj this).symm

/-- The name under which a function is printed. -/
def name : Builtin → String
  | abs => "abs" | sign => "sign" | min => "min" | max => "max"
  | sin => "sin" | cos => "cos" | tan => "tan" | sec => "sec" | csc => "csc" | cot => "cot"
  | asin => "asin" | acos => "acos" | atan => "atan"
  | asec => "asec" | acsc => "acsc" | acot => "acot"
  | sinh => "sinh" | cosh => "cosh" | tanh => "tanh"
  | sech => "sech" | csch => "csch" | coth => "coth"
  | asinh => "asinh" | acosh => "acosh" | atanh => "atanh"
  | asech => "asech" | acsch => "acsch" | acoth => "acoth"
  | sqrt => "sqrt" | exp => "exp" | ln => "ln" | log => "log" | pow => "pow"
  | floor => "floor" | ceiling => "ceiling" | round => "round"

/-- The number of arguments. -/
def arity : Builtin → Nat
  | min | max | log | pow => 2
  | _ => 1

/-! ## Spellings -/

/-- The canonical spelling of a name: lower case, `arcsin` as `asin`, `ceil` as `ceiling`. -/
def canonical (name : String) : String :=
  let lower := name.toList.map Char.toLower
  let short := match lower with
    | 'a' :: 'r' :: 'c' :: c :: rest => 'a' :: c :: rest
    | other => other
  if short = "ceil".toList then "ceiling" else String.ofList short

/-- The function of a name, by any of its spellings. -/
def find? (name : String) : Option Builtin :=
  let wanted := canonical name
  all.find? (fun f => f.name = wanted)

/-- Every function is found under its own name. -/
theorem find?_name : ∀ f : Builtin, find? f.name = some f := by
  intro f; cases f <;> decide +kernel

end Builtin

end AnalogCircuit
