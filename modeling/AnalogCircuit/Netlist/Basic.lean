import AnalogCircuit.Error
import AnalogCircuit.Expr.Basic
import AnalogCircuit.Sorting
/-!
# Netlists

What a netlist declares, in its own terms: element lines, models, parameters, and the nodes by which
signals enter and leave. Nodes are names here; the ground node is `0`.
-/

namespace AnalogCircuit

namespace Netlist

/-! ## Settings by key -/

/-- Gives a key its value, in place of the one it had. -/
def assign {β : Type} (settings : List (String × β)) (key : String) (value : β) :
    List (String × β) :=
  settings.filter (·.1 != key) ++ [(key, value)]

/-! ## Elements -/

/-- The kinds of elements a netlist can name. -/
inductive ElementKind where
  | resistor
  | capacitor
  | inductor
  | diode
  | bjt
  | voltageSource
  | currentSource
  | opAmp
  | potentiometer
  | transformer
deriving DecidableEq, Repr

/-- The terminals of a kind, in the order in which an element line gives their nodes. -/
def ElementKind.terminals : ElementKind → List String
  | resistor | capacitor | inductor | voltageSource | currentSource => ["n+", "n-"]
  | diode => ["anode", "cathode"]
  | bjt => ["collector", "base", "emitter"]
  | opAmp => ["out", "in+", "in-"]
  | potentiometer => ["n1", "wiper", "n2"]
  | transformer => ["pa", "pc", "sa", "sc"]

/-- The kind that a leading keyword names, as in `OPAMP U1 out in fb`. -/
def ElementKind.ofKeyword? (word : String) : Option ElementKind :=
  match word.toUpper with
  | "OP" | "OPAMP" => some opAmp
  | "POT" => some potentiometer
  | "XFMR" | "TRANSFORMER" => some transformer
  | _ => none

/-- The kind that an element's name implies, as in `R1`, `OP2` or `POTgain`. -/
def ElementKind.ofName? (name : String) : Option ElementKind :=
  match name.toUpper.toList with
  | 'O' :: 'P' :: _ => some opAmp
  | 'P' :: 'O' :: 'T' :: _ => some potentiometer
  | 'R' :: _ => some resistor
  | 'C' :: _ => some capacitor
  | 'L' :: _ => some inductor
  | 'D' :: _ => some diode
  | 'Q' :: _ => some bjt
  | 'V' :: _ => some voltageSource
  | 'I' :: _ => some currentSource
  | 'X' :: _ => some transformer
  | _ => none

/-- An element line. -/
structure Element (α : Type) where
  kind : ElementKind
  name : String
  /-- One node for each terminal of the kind. -/
  nodes : List String
  /-- The first bare value on the line. -/
  value? : Option (Expr α)
  model? : Option String
  /-- What is given by key, the key in lower case; also `dc`, `ac` and `position`. -/
  settings : List (String × Expr α)
  line : Nat

namespace Element

variable {α : Type}

/-- The value given by a key. -/
def setting? (e : Element α) (key : String) : Option (Expr α) := e.settings.lookup key

/-- Gives a key a value. -/
def set (e : Element α) (key : String) (value : Expr α) : Element α :=
  { e with settings := assign e.settings key value }

/-- Takes a bare value: the first one is the value of the element, any other the position. -/
def addValue (e : Element α) (value : Expr α) : Element α :=
  if e.value?.isNone then { e with value? := some value } else e.set "position" value

/-- The complaint about an element whose nodes are not as many as its terminals. -/
def wrongNodes (e : Element α) : Error :=
  let terminals := " ".intercalate e.kind.terminals
  .invalidComponent e.name e.line s!"expected nodes ({terminals}), got {e.nodes.length}"

end Element

/-! ## Models, parameters and the whole netlist -/

/-- The kinds of models. -/
inductive ModelKind where
  | diode
  | npn
  | pnp
  | opAmp
deriving DecidableEq, Repr

/-- The kind that a word names. -/
def ModelKind.ofWord? (word : String) : Option ModelKind :=
  match word.toUpper with
  | "D" | "DIODE" => some diode
  | "NPN" => some npn
  | "PNP" => some pnp
  | "OP" | "OPAMP" => some opAmp
  | _ => none

/-- A named set of numbers that elements refer to; the keys are in lower case. -/
structure Model (α : Type) where
  name : String
  kind : ModelKind
  settings : List (String × α)
  line : Nat

/-- The number given by a key. -/
def Model.setting? {α : Type} (m : Model α) (key : String) : Option α := m.settings.lookup key

/-- A named number that may be changed while a simulation runs. -/
structure Parameter (α : Type) where
  name : String
  default : α
  line : Nat

end Netlist

open Netlist in
/-- Everything that a netlist declares, in the order of its lines. -/
structure Netlist (α : Type) where
  elements : List (Element α)
  models : List (Model α)
  parameters : List (Parameter α)
  inputNode? : Option String
  /-- The name of the signal that enters at the input node. -/
  inputName? : Option String
  outputNode? : Option String
  /-- The nodes that have a place of their own, in order; ground is not among them. -/
  nodes : List String

namespace Netlist

variable {α : Type}

/-- A netlist that declares nothing. -/
def empty : Netlist α := ⟨[], [], [], none, none, none, []⟩

/-- The model of a name. -/
def model? (n : Netlist α) (name : String) : Option (Model α) := n.models.find? (·.name == name)

/-- Declares a node; ground and the nodes already declared are left as they are. -/
def addNode (n : Netlist α) (node : String) : Netlist α :=
  if node == "0" || n.nodes.contains node then n else { n with nodes := n.nodes ++ [node] }

/-- Puts the nodes that only elements mention behind the declared ones, in the order of their names. -/
def withElementNodes (n : Netlist α) : Netlist α :=
  let mentioned := (n.elements.flatMap (·.nodes)).eraseDups
  (sortBy (fun a b => !(b < a : Bool)) mentioned).foldl addNode n

end Netlist

end AnalogCircuit
