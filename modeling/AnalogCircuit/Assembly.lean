import AnalogCircuit.Circuit.Node
import AnalogCircuit.Error
import AnalogCircuit.Expr.Traverse
import AnalogCircuit.System
/-!
# Modified nodal analysis

A system of equations is assembled from actions: an element connects its terminals, introduces unknowns
of its own, states the current that flows into it at each terminal, once, and adds equations. At the end
every node but ground gets its law: the currents that leave it for the terminals sum to zero.

The voltage of a node is the unknown `V[node]`; the voltage of ground is zero. An action that fails
leaves the assembly as it was.
-/

namespace AnalogCircuit

/-- A step of an assembly. -/
inductive Action (α : Type) where
  /-- Introduces an unknown. -/
  | unknown (name : String)
  /-- Declares an input signal; it may be declared more than once. -/
  | input (name : String)
  /-- Declares a parameter. -/
  | parameter (name : String) (default : α)
  /-- Connects a terminal to its node. -/
  | connect (terminal : Terminal)
  /-- States the current that flows into an element through a terminal. -/
  | current (terminal : Terminal) (value : Expr α)
  /-- Adds an equation. -/
  | equation (lhs rhs : Expr α)

/-- A terminal and the current that flows through it into its element, once it is stated. -/
structure Connection (α : Type) where
  terminal : Terminal
  current? : Option (Expr α)

/-- The connection with a stated current. -/
def Connection.stating {α : Type} (value : Expr α) (c : Connection α) : Connection α :=
  { c with current? := some value }

/-- A system of equations under construction. -/
structure Assembly (α : Type) where
  /-- The names of the nodes, ground first. -/
  nodes : List String
  unknowns : List Symbol
  /-- The symbols that have a role, whichever. -/
  known : List Symbol
  inputs : List Symbol
  parameters : List (Parameter α)
  connections : List (Connection α)
  /-- Where the terminal of a name stands among the connections. -/
  index : List (String × Nat)
  equations : List (Equation α)

namespace Assembly

variable {α : Type}

/-! ## Voltages -/

/-- The unknown voltage of a node. -/
def voltageSymbol (node : String) : Symbol := .named ("V[" ++ node ++ "]")

/-- An assembly over some nodes, of which the first is ground; their voltages are its first unknowns. -/
def ofNodes (nodes : List String) : Assembly α :=
  let voltages := nodes.tail.map voltageSymbol
  ⟨nodes, voltages, voltages, [], [], [], [], []⟩

/-- The voltage of a node, given the names of all nodes. -/
def voltageOf [Scalar α] (nodes : List String) (n : Node) : Expr α :=
  if n.isGround then .zero else .sym (voltageSymbol (nodes.getD n.index ""))

/-- The voltage of a node. -/
def voltage [Scalar α] (a : Assembly α) (n : Node) : Expr α := voltageOf a.nodes n

/-- The voltage of ground or of a node of the assembly. -/
def knownVoltage [Scalar α] (a : Assembly α) (n : Node) : Except Error (Expr α) :=
  if n.isGround ∨ n.index < a.nodes.length then .ok (a.voltage n)
  else .error (.outOfRange "nodes" n.index a.nodes.length)

/-! ## Actions -/

/-- The symbol has a role in the assembly. -/
def knows (a : Assembly α) (s : Symbol) : Bool := a.known.contains s

/-- Performs an action. -/
def perform (a : Assembly α) : Action α → Except Error (Assembly α)
  | .unknown name =>
    let s := Symbol.named name
    if a.knows s then .error (.duplicateUnknown name)
    else .ok { a with known := a.known ++ [s], unknowns := a.unknowns ++ [s] }
  | .input name =>
    let s := Symbol.named name
    if a.inputs.contains s then .ok a
    else if a.knows s then .error (.duplicateDefinition name)
    else .ok { a with known := a.known ++ [s], inputs := a.inputs ++ [s] }
  | .parameter name default =>
    let s := Symbol.named name
    if a.knows s then .error (.duplicateDefinition name)
    else .ok { a with known := a.known ++ [s], parameters := a.parameters ++ [⟨s, default⟩] }
  | .connect terminal =>
    if (a.index.lookup terminal.name).isSome then .error (.duplicateComponent terminal.name)
    else .ok { a with
      index := a.index ++ [(terminal.name, a.connections.length)]
      connections := a.connections ++ [⟨terminal, none⟩] }
  | .current terminal value =>
    match a.index.lookup terminal.name with
    | none => .error (.invalidTopology s!"terminal '{terminal.name}' is not connected")
    | some i =>
      if a.connections[i]?.any (·.current?.isSome) then .error (.currentReassigned terminal.name)
      else .ok { a with connections := a.connections.modify i (·.stating value) }
  | .equation lhs rhs => .ok { a with equations := a.equations ++ [⟨lhs, rhs⟩] }

/-- Performs actions up to the first that fails; what was done before it stays done. -/
def performAll (a : Assembly α) : List (Action α) → Assembly α × Option Error
  | [] => (a, none)
  | action :: actions =>
    match a.perform action with
    | .ok a' => a'.performAll actions
    | .error e => (a, some e)

/-! ## The finished system -/

/-- The sum of the currents that flow from a node into the terminals there. -/
def nodeCurrent [Scalar α] (a : Assembly α) (n : Node) : Expr α :=
  .mkSum ((a.connections.filter (·.terminal.node == n)).filterMap (·.current?))

/-- The laws of the nodes other than ground. -/
def nodeEquations [Scalar α] (a : Assembly α) : List (Equation α) :=
  (List.range a.nodes.length).tail.map fun i => ⟨a.nodeCurrent ⟨i⟩, .zero⟩

/-- The symbols of some equations, each once, in their order. -/
def symbolsOf [Scalar α] (equations : List (Equation α)) : List Symbol :=
  (equations.flatMap fun q => q.lhs.symbols ++ q.rhs.symbols).foldl
    (fun out s => Expr.insertSymbol s out) []

/-- Adds the laws of the nodes and checks that the system is complete, closed and square. -/
def finish [Scalar α] (a : Assembly α) : Except Error (System α) :=
  match a.connections.find? (·.current?.isNone) with
  | some c => .error (.currentUnassigned c.terminal.name)
  | none =>
    let equations := a.equations ++ a.nodeEquations
    match (symbolsOf equations).find? fun s => !a.knows s && s != .time with
    | some s => .error (.undefinedSymbol s.text)
    | none =>
      let found := equations.length
      let wanted := a.unknowns.length
      if found < wanted then .error (.underdetermined found wanted)
      else if wanted < found then .error (.overdetermined found wanted)
      else .ok ⟨a.unknowns, equations, a.inputs, a.parameters⟩

end Assembly

end AnalogCircuit
