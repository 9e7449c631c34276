import AnalogCircuit.Expr.Traverse
import AnalogCircuit.System
/-!
# Discretization

From continuous time to equations between a sample and the one before it. Every time derivative and
every running integral becomes an unknown of its own, tied to its operand by the trapezoidal rule, and
the time becomes that of the previous sample plus the step. Equal terms share one unknown.

The new unknowns are named after what they stand for; strokes are added to a name as long as it is taken,
which ends because the name gets longer.
-/

namespace AnalogCircuit

/-- The two operators of time. -/
inductive TimeOperator where
  | derivative
  | integral
deriving DecidableEq, Repr

/-- The letter by which unknowns for the operator are named. -/
def TimeOperator.letter : TimeOperator → String
  | derivative => "D"
  | integral => "I"

/-- An unknown that stands for an operator applied to an operand without operators of time. -/
structure TimeState (α : Type) where
  operator : TimeOperator
  operand : Expr α
  unknown : Symbol

/-! ## Fresh names -/

/-- The length of the longest of some names. -/
def longest (names : List String) : Nat := names.foldr (fun n l => max n.length l) 0

theorem length_le_longest {names : List String} {name : String} (h : name ∈ names) :
    name.length ≤ longest names := by
  induction names with
  | nil => simp at h
  | cons n ns ih =>
    rcases List.mem_cons.mp h with rfl | h
    · exact Nat.le_max_left ..
    · exact Nat.le_trans (ih h) (Nat.le_max_right ..)

/-- The name with as few strokes added as make it different from those that are taken. -/
def freshName (taken : List String) (name : String) : String :=
  if _h : name ∈ taken then freshName taken (name ++ "'") else name
termination_by longest taken + 1 - name.length
decreasing_by
  have := length_le_longest _h
  have : (name ++ "'").length = name.length + 1 := by rw [String.length_append]; rfl
  omega

/-! ## Elimination of the operators -/

variable {α : Type} [Scalar α]

/-- The unknowns introduced so far, and a result. -/
abbrev Discretizing (α : Type) : Type → Type := StateM (List (TimeState α))

/-- The unknown for an operator and its operand: the one that stands for them already, or a new one.
The names in `taken` belong to the system. -/
def stateUnknown (taken : List String) (operator : TimeOperator) (operand : Expr α) :
    Discretizing α Symbol := fun states =>
  match states.find? fun s => s.operator == operator && s.operand == operand with
  | some s => (s.unknown, states)
  | none =>
    let u := Symbol.named (freshName (taken ++ states.map (·.unknown.name))
      (operator.letter ++ "[" ++ operand.text ++ "]"))
    (u, states ++ [⟨operator, operand, u⟩])

mutual

/-- The expression with unknowns in place of derivatives and integrals over the time. -/
def eliminate (taken : List String) : Expr α → Discretizing α (Expr α)
  | .num v => return .num v
  | .sym s => return .sym s
  | .sum ts => return .mkSum (← eliminateList taken ts)
  | .product fs => return .mkProduct (← eliminateList taken fs)
  | .power a b => return .mkPow (← eliminate taken a) (← eliminate taken b)
  | .call f args => return .mkCall f (← eliminateList taken args)
  | .apply f args => return .apply f (← eliminateList taken args)
  | .compare c a b => return .mkCompare c (← eliminate taken a) (← eliminate taken b)
  | .select c a b =>
    return .mkSelect (← eliminate taken c) (← eliminate taken a) (← eliminate taken b)
  | .derivative x t => do
    let x ← eliminate taken x
    if t = .time then return .sym (← stateUnknown taken .derivative x)
    else return .mkDerivative x t
  | .integral x t => do
    let x ← eliminate taken x
    if t = .time then return .sym (← stateUnknown taken .integral x)
    else return .mkIntegral x t

/-- Several expressions, from left to right. -/
def eliminateList (taken : List String) : List (Expr α) → Discretizing α (List (Expr α))
  | [] => return []
  | e :: es => return (← eliminate taken e) :: (← eliminateList taken es)

end

/-- An equation with unknowns in place of derivatives and integrals over the time. -/
def eliminateEquation (taken : List String) (q : Equation α) : Discretizing α (Equation α) :=
  return ⟨← eliminate taken q.lhs, ← eliminate taken q.rhs⟩

/-! ## The trapezoidal rule -/

/-- The value of an expression one sample earlier; parameters have no history. -/
def System.previous (system : System α) (e : Expr α) : Expr α :=
  e.mapSymbols fun s => if system.isParameter s then .sym s else .sym s.previous

/-- The rule that ties a new unknown `u` to its operand `x`, with `x₀` and `u₀` one sample earlier: a
derivative satisfies `x - x₀ = h/2 (u + u₀)` and an integral `u = u₀ + h/2 (x + x₀)`. -/
def TimeState.rule (system : System α) (step : α) (s : TimeState α) : Equation α :=
  let half := Expr.mkNum (step / 2.0)
  let u := Expr.sym s.unknown
  let u₀ := Expr.sym s.unknown.previous
  let x₀ := system.previous s.operand
  match s.operator with
  | .derivative => ⟨s.operand - x₀, half * (u + u₀)⟩
  | .integral => ⟨u, u₀ + half * (s.operand + x₀)⟩

/-- The equation with the time of the sample in place of the time: the previous one plus the step. -/
def atStep (step : α) (q : Equation α) : Equation α :=
  let now := Expr.sym .previousTime + .mkNum step
  ⟨q.lhs.replace .time now, q.rhs.replace .time now⟩

/-- A system of equations between two samples. -/
structure Discretization (α : Type) where
  /-- The unknowns of the system in continuous time, then those for derivatives and integrals. -/
  unknowns : List Symbol
  equations : List (Equation α)

/-- The names that have a meaning in a system. -/
def System.names (system : System α) : List String :=
  (system.unknowns ++ system.inputs ++ system.parameters.map (·.symbol)).map (·.name)

/-- The system at samples that are one step apart. -/
def System.discretize (system : System α) (step : α) : Discretization α :=
  let (equations, states) := (system.equations.mapM (eliminateEquation system.names)).run []
  { unknowns := system.unknowns ++ states.map (·.unknown)
    equations := (equations ++ states.map (·.rule system step)).map (atStep step) }

end AnalogCircuit
