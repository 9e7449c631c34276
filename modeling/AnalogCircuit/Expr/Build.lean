import AnalogCircuit.Expr.Factors
/-!
# Canonical constructors

One function per kind of node. Each folds constants and otherwise builds the node in its canonical form,
so that like terms and like factors meet. Together with `mkSum`, `mkProduct` and `mkPow` these are all
the ways in which the library builds expressions.
-/

namespace AnalogCircuit.Expr

variable {α : Type} [Scalar α]

/-! ## Operators -/

instance : Neg (Expr α) := ⟨fun a => mkProduct [mkNum (-1), a]⟩

instance : Add (Expr α) := ⟨fun a b => mkSum [a, b]⟩

instance : Sub (Expr α) := ⟨fun a b => mkSum [a, -b]⟩

instance : Mul (Expr α) := ⟨fun a b => mkProduct [a, b]⟩

instance : Div (Expr α) := ⟨fun a b => mkProduct [a, mkPow b (mkNum (-1))]⟩

/-! ## Functions and conditions -/

/-- Application of a built-in function: a power where it is one, a constant where all arguments are. -/
def mkCall (f : Builtin) (args : List (Expr α)) : Expr α :=
  match f, args with
  | .pow, [a, b] => mkPow a b
  | f, args =>
    match (args.mapM constant?).bind (Scalar.applyBuiltin f) with
    | some v => mkNum v
    | none => call f args

/-- The square root. -/
def mkSqrt (a : Expr α) : Expr α := mkCall .sqrt [a]

/-- The exponential function. -/
def mkExp (a : Expr α) : Expr α := mkCall .exp [a]

/-- A comparison; between constants its truth value. -/
def mkCompare (c : Comparison) (a b : Expr α) : Expr α :=
  match a, b with
  | num x, num y => mkNum (Scalar.ofBool (c.holds x y))
  | a, b => compare c a b

/-- A choice; a constant condition decides it, and equal branches need none. -/
def mkSelect (c a b : Expr α) : Expr α :=
  match c with
  | num v => if Scalar.isZero v then b else a
  | c => if a == b then a else select c a b

/-- The time derivative; that of a constant is zero. -/
def mkDerivative (x : Expr α) (t : Symbol) : Expr α :=
  match x with
  | num _ => zero
  | x => derivative x t

/-- The running integral. -/
def mkIntegral (x : Expr α) (t : Symbol) : Expr α := integral x t

end AnalogCircuit.Expr
