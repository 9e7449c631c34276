import AnalogCircuit.Expr.Build
/-!
# Questions about expressions, and substitution

Everything here is recursion on the tree. A rewritten expression goes through the canonical constructors
again, from the leaves up. The symbol of a derivative or an integral is no part of it: it is neither
visited nor replaced.
-/

namespace AnalogCircuit.Expr

variable {α : Type}

/-! ## Nodes and symbols -/

mutual

/-- All nodes, each before its parts. -/
def nodes : Expr α → List (Expr α)
  | num v => [num v]
  | sym s => [sym s]
  | sum ts => sum ts :: nodesList ts
  | product fs => product fs :: nodesList fs
  | power a b => power a b :: (nodes a ++ nodes b)
  | call f args => call f args :: nodesList args
  | apply f args => apply f args :: nodesList args
  | compare c a b => compare c a b :: (nodes a ++ nodes b)
  | select c a b => select c a b :: (nodes c ++ (nodes a ++ nodes b))
  | derivative x t => derivative x t :: nodes x
  | integral x t => integral x t :: nodes x

/-- The nodes of several expressions. -/
def nodesList : List (Expr α) → List (Expr α)
  | [] => []
  | e :: es => nodes e ++ nodesList es

end

/-- The occurrences of symbols, from left to right. -/
def occurrences (e : Expr α) : List Symbol := e.nodes.filterMap symbol?

/-- Puts a symbol into a sorted list without repetitions. -/
def insertSymbol (s : Symbol) : List Symbol → List Symbol
  | [] => [s]
  | t :: rest =>
    match Symbol.order s t with
    | .lt => s :: t :: rest
    | .eq => t :: rest
    | .gt => t :: insertSymbol s rest

/-- The symbols of an expression, each once, in their order. -/
def symbols (e : Expr α) : List Symbol :=
  e.occurrences.foldl (fun out s => insertSymbol s out) []

mutual

/-- Some symbol of the expression has a property. -/
def dependsOn (p : Symbol → Bool) : Expr α → Bool
  | num _ => false
  | sym s => p s
  | sum ts | product ts | call _ ts | apply _ ts => dependsOnList p ts
  | power a b | compare _ a b => dependsOn p a || dependsOn p b
  | select c a b => dependsOn p c || (dependsOn p a || dependsOn p b)
  | derivative x _ | integral x _ => dependsOn p x

/-- Some symbol of one of the expressions has a property. -/
def dependsOnList (p : Symbol → Bool) : List (Expr α) → Bool
  | [] => false
  | e :: es => dependsOn p e || dependsOnList p es

end

/-- A symbol occurs in the expression. -/
def contains (e : Expr α) (s : Symbol) : Bool := e.dependsOn (· == s)

mutual

/-- Some node has a property. -/
def any (p : Expr α → Bool) (e : Expr α) : Bool :=
  p e || match e with
    | num _ | sym _ => false
    | sum ts | product ts | call _ ts | apply _ ts => anyList p ts
    | power a b | compare _ a b => any p a || any p b
    | select c a b => any p c || (any p a || any p b)
    | derivative x _ | integral x _ => any p x

/-- Some node of one of the expressions has a property. -/
def anyList (p : Expr α → Bool) : List (Expr α) → Bool
  | [] => false
  | e :: es => any p e || anyList p es

end

/-! ## Rewriting -/

variable [Scalar α]

/-- Rebuilds an expression from the images of its parts. -/
def mapChildren (f : Expr α → Expr α) : Expr α → Expr α
  | num v => num v
  | sym s => sym s
  | sum ts => mkSum (ts.map f)
  | product fs => mkProduct (fs.map f)
  | power a b => mkPow (f a) (f b)
  | call g args => mkCall g (args.map f)
  | apply g args => apply g (args.map f)
  | compare c a b => mkCompare c (f a) (f b)
  | select c a b => mkSelect (f c) (f a) (f b)
  | derivative x t => mkDerivative (f x) t
  | integral x t => mkIntegral (f x) t

mutual

/-- Replaces subtrees from the top: where `f` answers, its answer stands for the whole subtree, and
elsewhere the parts are rewritten. -/
def rewrite (f : Expr α → Option (Expr α)) (e : Expr α) : Expr α :=
  match f e with
  | some r => r
  | none =>
    match e with
    | num v => num v
    | sym s => sym s
    | sum ts => mkSum (rewriteList f ts)
    | product fs => mkProduct (rewriteList f fs)
    | power a b => mkPow (rewrite f a) (rewrite f b)
    | call g args => mkCall g (rewriteList f args)
    | apply g args => apply g (rewriteList f args)
    | compare c a b => mkCompare c (rewrite f a) (rewrite f b)
    | select c a b => mkSelect (rewrite f c) (rewrite f a) (rewrite f b)
    | derivative x t => mkDerivative (rewrite f x) t
    | integral x t => mkIntegral (rewrite f x) t

/-- Rewrites several expressions. -/
def rewriteList (f : Expr α → Option (Expr α)) : List (Expr α) → List (Expr α)
  | [] => []
  | e :: es => rewrite f e :: rewriteList f es

end

theorem rewriteList_eq_map (f : Expr α → Option (Expr α)) (es : List (Expr α)) :
    rewriteList f es = es.map (rewrite f) := by
  induction es with
  | nil => rfl
  | cons e es ih => rw [rewriteList, ih, List.map_cons]

/-- Where `f` does not answer, rewriting is rebuilding from the rewritten parts. -/
theorem rewrite_eq (f : Expr α → Option (Expr α)) (e : Expr α) :
    rewrite f e = (f e).getD (mapChildren (rewrite f) e) := by
  rw [rewrite.eq_def]
  cases h : f e with
  | some r => rfl
  | none => cases e <;> simp only [mapChildren, rewriteList_eq_map, Option.getD_none]

/-- Replaces every symbol by its image. -/
def mapSymbols (f : Symbol → Expr α) (e : Expr α) : Expr α :=
  e.rewrite fun
    | sym s => some (f s)
    | _ => none

/-- A finite map from symbols to expressions. -/
abbrev Bindings (α : Type) : Type := List (Symbol × Expr α)

/-- Replaces the bound symbols by their images, all at once. Without bindings nothing is rebuilt. -/
def substitute (e : Expr α) (bindings : Bindings α) : Expr α :=
  if bindings.isEmpty then e
  else e.rewrite fun
    | sym s => bindings.lookup s
    | _ => none

/-- Replaces one symbol. -/
def replace (e : Expr α) (s : Symbol) (image : Expr α) : Expr α := e.substitute [(s, image)]

/-- An expression is canonical when rebuilding it or any part of it from its parts changes nothing. -/
def IsCanonical (e : Expr α) : Prop := ∀ n ∈ e.nodes, mapChildren id n = n

end AnalogCircuit.Expr
