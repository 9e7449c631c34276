/-!
# Nodes and terminals

The nodes of a circuit are numbered; number zero is ground. A terminal is one of the points at which an
element is connected to a node.
-/

namespace AnalogCircuit

/-- A node of a circuit. -/
structure Node where
  index : Nat
deriving DecidableEq, Repr

/-- The node whose voltage is zero. -/
def Node.ground : Node := ⟨0⟩

/-- The node is ground. -/
def Node.isGround (n : Node) : Bool := n.index == 0

/-- The written form: `GND`, or `N` and the number. -/
def Node.text (n : Node) : String := if n.isGround then "GND" else s!"N{n.index}"

/-- A connection point of an element. -/
structure Terminal where
  element : String
  pin : String
  node : Node
deriving DecidableEq, Repr

/-- The name of a terminal, by which it is told apart from all others. -/
def Terminal.name (t : Terminal) : String := t.element ++ "." ++ t.pin

end AnalogCircuit
