import AnalogCircuit.Circuit.Component
import AnalogCircuit.Netlist.Parse
/-!
# Circuits

A circuit is a netlist in which names are resolved: nodes are numbered, elements refer to the parameters
of their models, and the input signal has a source. A valid circuit has an input and an output other
than ground, and some element at ground.
-/

namespace AnalogCircuit

/-- A circuit. -/
structure Circuit (α : Type) where
  components : List (Component α)
  /-- The names of the nodes by their numbers, ground first. -/
  nodes : List String
  parameters : List (Netlist.Parameter α)
  inputNode? : Option Node
  /-- The name of the input signal. -/
  signal : String
  outputNode : Node

namespace Circuit

variable {α : Type}

/-! ## Names -/

/-- The node of a name, given the names of all nodes; `GND` is ground too. -/
def nodeIn? (nodes : List String) (name : String) : Option Node :=
  if name = "GND" then some .ground else (nodes.idxOf? name).map Node.mk

/-- The node of a name. -/
def node? (c : Circuit α) (name : String) : Option Node := nodeIn? c.nodes name

/-- The place of the first component that an input signal drives. -/
def inputSource? (c : Circuit α) : Option Nat := c.components.findIdx? (·.device.isDriven)

/-- The name of the input signal, if it drives a component. -/
def inputName? (c : Circuit α) : Option String := c.inputSource?.map fun _ => c.signal

/-- The name of the unknown that is observed at the output. -/
def outputName (c : Circuit α) : String :=
  (Assembly.voltageSymbol (c.nodes.getD c.outputNode.index "")).name

/-- Some component needs iteration. -/
def isNonlinear (c : Circuit α) : Bool := c.components.any (·.device.isNonlinear)

/-! ## From netlists -/

variable [Scalar α]

/-- The node of a name, which has to exist. -/
def resolve (nodes : List String) (name : String) : Except Error Node :=
  match nodeIn? nodes name with
  | some n => .ok n
  | none => .error (.nodeNotFound name)

/-- The value of an element that cannot do without; `what` says what the element is. -/
def requireValue (e : Netlist.Element α) (what : String) : Except Error (Expr α) :=
  match e.value? with
  | some v => .ok v
  | none => .error (.invalidComponent e.name e.line (what ++ " requires a value"))

/-- The law of an element: that of its model, which has to be of one of these kinds, or the standard
one. -/
def lawOf {β : Type} (e : Netlist.Element α) (model? : Option (Netlist.Model α))
    (kinds : List Netlist.ModelKind) (ofModel : Netlist.Model α → β) (standard : β) :
    Except Error β :=
  match model? with
  | none => .ok standard
  | some m =>
    if kinds.contains m.kind then .ok (ofModel m)
    else .error (.invalidComponent e.name e.line s!"model '{m.name}' has the wrong type")

/-- The device that an element denotes at some nodes. The key `ac` gives the gain by which the input
signal drives a source of voltage, and `dc` goes before its bare value. -/
def deviceOf (e : Netlist.Element α) (nodes : List Node) (model? : Option (Netlist.Model α))
    (signal : String) : Except Error (Device α) := do
  match e.kind, nodes with
  | .resistor, [a, b] => return .resistor a b (← requireValue e "resistor")
  | .capacitor, [a, b] => return .capacitor a b (← requireValue e "capacitor")
  | .inductor, [a, b] => return .inductor a b (← requireValue e "inductor")
  | .voltageSource, [a, b] =>
    let steady := ((e.setting? "dc").orElse fun _ => e.value?).getD .zero
    return .voltageSource a b steady ((e.setting? "ac").map fun gain => ⟨signal, gain⟩)
  | .currentSource, [a, b] => return .currentSource a b (e.value?.getD .zero)
  | .diode, [a, k] => return .diode a k (← lawOf e model? [.diode] Diode.ofModel .standard)
  | .bjt, [c, b, x] =>
    return .transistor c b x
      (← lawOf e model? [.npn, .pnp] Transistor.ofModel (.standard .npn))
  | .opAmp, [out, p, n] =>
    return .amplifier out p n (← lawOf e model? [.opAmp] Amplifier.ofModel .ideal)
  | .potentiometer, [a, w, b] =>
    let total ← requireValue e "potentiometer"
    return .potentiometer a w b (.limited total ((e.setting? "position").getD (.mkNum 0.5)))
  | .transformer, [pa, pc, sa, sc] => return .transformer pa pc sa sc (e.value?.getD .one)
  | _, _ => throw e.wrongNodes

/-- The component that an element line denotes. -/
def componentOf (n : Netlist α) (nodes : List String) (signal : String) (e : Netlist.Element α) :
    Except Error (Component α) := do
  let ends ← e.nodes.mapM (resolve nodes)
  let model? ← match e.model? with
    | none => pure none
    | some name =>
      match n.model? name with
      | some m => pure (some m)
      | none => throw (.undefinedModel name e.name)
  return ⟨e.name, ← deviceOf e ends model? signal⟩

/-- Adds a component, whose name has to be new. -/
def addComponent (name : String) (build : Except Error (Component α)) (cs : List (Component α)) :
    Except Error (List (Component α)) :=
  if cs.any (·.name == name) then .error (.duplicateComponent name)
  else build.map fun c => cs ++ [c]

/-- The name of the source that is added where no component is driven at an input node. -/
def inputSourceName : String := "V_input"

/-- The circuit of a netlist, its names resolved. -/
def ofNetlist (n : Netlist α) : Except Error (Circuit α) := do
  let nodes := "0" :: n.nodes
  let outputNode ← match n.outputNode? with
    | some name => resolve nodes name
    | none => throw .missingOutput
  let inputNode? ← n.inputNode?.mapM (resolve nodes)
  let signal := n.inputName?.getD "Vin"
  let components ← n.elements.foldlM
    (fun cs e => addComponent e.name (componentOf n nodes signal e) cs) []
  let components ← match inputNode?, components.any (·.device.isDriven) with
    | some node, false =>
      addComponent inputSourceName
        (.ok ⟨inputSourceName, .voltageSource node .ground .zero (some ⟨signal, .one⟩)⟩) components
    | _, _ => pure components
  return { components, nodes, parameters := n.parameters, inputNode?, signal, outputNode }

/-! ## Validity -/

/-- Refuses a circuit that cannot be simulated. -/
def validate (c : Circuit α) : Except Error Unit := do
  if c.inputNode?.any (·.isGround) then throw (.invalidTopology "Input node cannot be ground")
  if c.outputNode.isGround then throw (.invalidTopology "Output node cannot be ground")
  if c.components.isEmpty then throw (.invalidTopology "Circuit has no components")
  if !c.components.any (·.nodes.any (·.isGround)) then throw .missingGround

/-- The valid circuit that a text denotes. -/
def ofText (text : String) : Except Error (Circuit α) := do
  let c ← ofNetlist (← Netlist.parse text)
  c.validate
  return c

/-! ## Equations -/

/-- The actions that assemble the equations of a circuit. -/
def actions (c : Circuit α) : List (Action α) :=
  c.parameters.map (fun p => .parameter p.name p.default) ++
    c.components.flatMap (·.actions (Assembly.voltageOf c.nodes))

/-- The equations of a circuit in continuous time. -/
def equations (c : Circuit α) : Except Error (System α) :=
  match (Assembly.ofNodes c.nodes).performAll c.actions with
  | (assembly, none) => assembly.finish
  | (_, some e) => .error e

end Circuit

end AnalogCircuit
