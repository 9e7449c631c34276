import AnalogCircuit.Expr.Traverse
/-!
# Differentiation

The partial derivative of an expression with respect to a symbol, in canonical form. A minimum and a
maximum are differentiated as choices, a logarithm to a base as a quotient, and a power that is written
as a call as a power. The last two are the only steps that leave the tree: they are counted, and the
recursion is on that count outside and on the tree inside.
-/

namespace AnalogCircuit

variable {α : Type} [Scalar α]

/-! ## Built-in functions -/

/-- The derivative of a function of one argument, at an expression. -/
def Builtin.derivative? (f : Builtin) (x : Expr α) : Option (Expr α) :=
  let one : Expr α := Expr.one
  let square (e : Expr α) : Expr α := Expr.mkPow e (Expr.mkNum 2.0)
  let invSqrt (e : Expr α) : Expr α := Expr.mkPow e (Expr.mkNum (-0.5))
  let at_ (g : Builtin) : Expr α := Expr.mkCall g [x]
  match f with
  | .abs => some (at_ .sign)
  | .sign | .floor | .ceiling | .round => some Expr.zero
  | .sin => some (at_ .cos)
  | .cos => some (-at_ .sin)
  | .tan => some (one + square (at_ .tan))
  | .sec => some (at_ .sec * at_ .tan)
  | .csc => some (-(at_ .csc * at_ .cot))
  | .cot => some (-square (at_ .csc))
  | .asin => some (invSqrt (one - square x))
  | .acos => some (-invSqrt (one - square x))
  | .atan => some (one / (one + square x))
  | .asec => some (one / (at_ .abs * Expr.mkSqrt (square x - one)))
  | .acsc => some (-(one / (at_ .abs * Expr.mkSqrt (square x - one))))
  | .acot => some (-(one / (one + square x)))
  | .sinh => some (at_ .cosh)
  | .cosh => some (at_ .sinh)
  | .tanh => some (one - square (at_ .tanh))
  | .sech => some (-(at_ .sech * at_ .tanh))
  | .csch => some (-(at_ .csch * at_ .coth))
  | .coth => some (one - square (at_ .coth))
  | .asinh => some (invSqrt (square x + one))
  | .acosh => some (invSqrt (square x - one))
  | .atanh | .acoth => some (one / (one - square x))
  | .asech => some (-(one / (x * Expr.mkSqrt (one - square x))))
  | .acsch => some (-(one / (at_ .abs * Expr.mkSqrt (one + square x))))
  | .sqrt => some (Expr.mkNum 0.5 / at_ .sqrt)
  | .exp => some (at_ .exp)
  | .ln => some (one / x)
  | .min | .max | .log | .pow => none

namespace Expr

/-! ## Rules -/

/-- The sum over the factors of the product with that factor replaced by its derivative; factors whose
derivative vanishes contribute nothing. Each factor comes with its derivative. -/
def productRule (fs : List (Expr α × Expr α)) : Expr α :=
  let factors := fs.map (·.1)
  mkSum (fs.mapIdx fun i f =>
    if f.2.isZero then zero else mkProduct (factors.set i f.2))

/-- The derivative of a power whose exponent is constant. -/
def constantPowerRule (b e db : Expr α) : Expr α := mkProduct [e, mkPow b (e - one), db]

/-- The derivative of a power of which both parts vary. -/
def powerRule (b e db de : Expr α) : Expr α :=
  mkProduct [power b e, de * mkCall .ln [b] + e * db / b]

/-! ## Steps that leave the tree -/

mutual

/-- The number of calls that are differentiated in another form. -/
def rewritableCalls : Expr α → Nat
  | num _ | sym _ => 0
  | call .log [a, b] => a.rewritableCalls + b.rewritableCalls + 1
  | call .pow [a, b] => a.rewritableCalls + b.rewritableCalls + 1
  | sum ts | product ts | call _ ts | apply _ ts => rewritableCallsList ts
  | power a b | compare _ a b => a.rewritableCalls + b.rewritableCalls
  | select c a b => c.rewritableCalls + a.rewritableCalls + b.rewritableCalls
  | derivative x _ | integral x _ => x.rewritableCalls

/-- The number of such calls in several expressions. -/
def rewritableCallsList : List (Expr α) → Nat
  | [] => 0
  | e :: es => e.rewritableCalls + rewritableCallsList es

end

/-! ## The derivative -/

mutual

/-- The derivative of `e`. A call that is differentiated in another form is handed to `again?`, and stays
as a derivative where that is missing. -/
def diffStep (x : Symbol) (again? : Option (Expr α → Expr α)) (e : Expr α) : Expr α :=
  if !e.contains x then zero
  else match e with
    | num _ => zero
    | sym _ => one
    | sum ts => mkSum (diffSteps x again? ts)
    | product fs => productRule (fs.zip (diffSteps x again? fs))
    | power b p =>
      if p.contains x then powerRule b p (diffStep x again? b) (diffStep x again? p)
      else constantPowerRule b p (diffStep x again? b)
    | call .min [a, b] => mkSelect (mkCompare .lt a b) (diffStep x again? a) (diffStep x again? b)
    | call .max [a, b] => mkSelect (mkCompare .gt a b) (diffStep x again? a) (diffStep x again? b)
    | call .log [a, b] =>
      match again? with
      | none => derivative e x
      | some again => again (mkCall .ln [a] / mkCall .ln [b])
    | call .pow [a, b] =>
      match again? with
      | none => derivative e x
      | some again => again (mkPow a b)
    | call f [a] =>
      match f.derivative? a with
      | some outer => outer * diffStep x again? a
      | none => derivative e x
    | call _ _ => derivative e x
    | apply _ _ => derivative e x
    | compare _ _ _ => zero
    | select c a b => mkSelect c (diffStep x again? a) (diffStep x again? b)
    | derivative a t => mkDerivative (diffStep x again? a) t
    | integral a t => mkIntegral (diffStep x again? a) t

/-- The derivatives of several expressions. -/
def diffSteps (x : Symbol) (again? : Option (Expr α → Expr α)) : List (Expr α) → List (Expr α)
  | [] => []
  | e :: es => diffStep x again? e :: diffSteps x again? es

end

/-- The derivative of `e` with at most `k` calls inside each other differentiated in another form. -/
def diffWith (x : Symbol) : (k : Nat) → Expr α → Expr α
  | 0 => diffStep x none
  | k + 1 => diffStep x (some (diffWith x k))

/-- The partial derivative with respect to a symbol. -/
def diff (e : Expr α) (x : Symbol) : Expr α := diffWith x e.rewritableCalls e

end Expr

end AnalogCircuit
