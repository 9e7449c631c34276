import AnalogCircuit.Expr.Basic
import AnalogCircuit.Sorting
/-!
# The order on expressions

Expressions of different kinds are ordered by kind, those of one kind by their parts from left to
right, and lists of parts as words in a dictionary. Two expressions are equal under the order exactly
when they are the same tree, so sorting and looking up by it identify identical terms and no others.
-/

namespace AnalogCircuit.Expr

variable {α : Type} [Scalar α]

mutual

/-- The total order on expressions. -/
def order : Expr α → Expr α → Ordering
  | num a, num b => Scalar.order a b
  | sym a, sym b => Symbol.order a b
  | sum a, sum b => orderList a b
  | product a, product b => orderList a b
  | power a b, power c d => (order a c).then (order b d)
  | call f a, call g b => (Ord.compare f.rank g.rank).then (orderList a b)
  | apply f a, apply g b => (Ord.compare f g).then (orderList a b)
  | compare p a b, compare q c d =>
    ((Ord.compare p.rank q.rank).then (order a c)).then (order b d)
  | select a b c, select d e f => ((order a d).then (order b e)).then (order c f)
  | derivative a x, derivative b y => (order a b).then (Symbol.order x y)
  | integral a x, integral b y => (order a b).then (Symbol.order x y)
  | a, b => Ord.compare a.rank b.rank

/-- The dictionary order on lists of expressions. -/
def orderList : List (Expr α) → List (Expr α) → Ordering
  | [], [] => .eq
  | [], _ :: _ => .lt
  | _ :: _, [] => .gt
  | a :: as, b :: bs => (order a b).then (orderList as bs)

end

instance : Ord (Expr α) := ⟨order⟩

/-- Two expressions are equal when the order does not tell them apart. -/
instance : BEq (Expr α) := ⟨fun a b => (order a b).isEq⟩

/-! ## Hash -/

mutual

/-- A hash that respects the order. -/
def hash : Expr α → UInt64
  | num v => mixHash 0 (Scalar.hash v)
  | sym s => mixHash 1 (Hashable.hash s)
  | sum ts => mixHash 2 (hashList ts)
  | product ts => mixHash 3 (hashList ts)
  | power a b => mixHash 4 (mixHash a.hash b.hash)
  | call f ts => mixHash 5 (mixHash (Hashable.hash f.rank) (hashList ts))
  | apply f ts => mixHash 6 (mixHash (Hashable.hash f) (hashList ts))
  | compare p a b => mixHash 7 (mixHash (Hashable.hash p.rank) (mixHash a.hash b.hash))
  | select c a b => mixHash 8 (mixHash c.hash (mixHash a.hash b.hash))
  | derivative x t => mixHash 9 (mixHash x.hash (Hashable.hash t))
  | integral x t => mixHash 10 (mixHash x.hash (Hashable.hash t))

/-- The hash of a list of expressions. -/
def hashList : List (Expr α) → UInt64
  | [] => 17
  | e :: es => mixHash e.hash (hashList es)

end

instance : Hashable (Expr α) := ⟨hash⟩

/-! ## Sorting -/

/-- Sorts expressions; equal ones keep their order. -/
def sort (es : List (Expr α)) : List (Expr α) :=
  sortBy (fun a b => (order a b).isLE) es

end AnalogCircuit.Expr
