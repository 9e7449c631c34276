import AnalogCircuit.Equation
/-!
# Systems of equations

A circuit in continuous time: as many equations as unknowns, over the unknowns, the input signals, the
parameters and the time.
-/

namespace AnalogCircuit

/-- A symbol whose value is set from outside, with the value it has at first. -/
structure Parameter (α : Type) where
  symbol : Symbol
  default : α

/-- A system of equations in continuous time. -/
structure System (α : Type) where
  unknowns : List Symbol
  equations : List (Equation α)
  inputs : List Symbol
  parameters : List (Parameter α)

/-- The symbol is one of the parameters. -/
def System.isParameter {α : Type} (system : System α) (s : Symbol) : Bool :=
  system.parameters.any (·.symbol == s)

end AnalogCircuit
