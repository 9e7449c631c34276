import AnalogCircuit.Expr.Basic
/-!
# Domains

The set to which the value of an expression is known to belong. Domains are ordered by inclusion: truth
values are integers, integers are reals.
-/

namespace AnalogCircuit

/-- A set of numbers that holds the values of an expression. -/
inductive Domain where
  | boolean
  | integer
  | real
deriving DecidableEq, Repr

namespace Domain

/-- The position in the order by inclusion. -/
def rank : Domain → Nat
  | boolean => 0
  | integer => 1
  | real => 2

/-- The smaller domain is included in the larger one. -/
def includes (big small : Domain) : Bool := small.rank ≤ big.rank

/-- The smallest domain that includes both. -/
def join (a b : Domain) : Domain := if a.includes b then a else b

variable {α : Type} [Scalar α]

/-- The smallest domain known to hold the values of an expression. -/
def of : Expr α → Domain
  | .compare _ _ _ => boolean
  | .num v =>
    if Scalar.isZero v || Scalar.isOne v then boolean
    else if Scalar.isIntegral v then integer
    else real
  | .call .floor _ | .call .ceiling _ | .call .round _ | .call .sign _ => integer
  | .select _ a b => (of a).join (of b)
  | _ => real

/-- The values of the expression are known to belong to the domain. -/
def contains (d : Domain) (e : Expr α) : Bool := d.includes (of e)

end Domain

end AnalogCircuit
