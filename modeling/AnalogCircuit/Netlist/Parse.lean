import AnalogCircuit.Expr.Parse
import AnalogCircuit.Netlist.Basic
import AnalogCircuit.Netlist.Line
import AnalogCircuit.Text.Case
/-!
# Reading netlists

A line is empty, a directive or an element. Directives start with a point: `.input`, `.output`, `.node`,
`.param` and `.model`. An element line gives a name that implies the kind, or a keyword and a name, then
a node for each terminal, then values, a model and settings in any order. A value is a number or an
expression in braces.

Loops run along a line, and every reader shortens it.
-/

namespace AnalogCircuit.Netlist

variable {α : Type} [Scalar α]

namespace Line

/-! ## Nodes, numbers and values -/

/-- Both names of the ground node become one. -/
def groundedName (node : String) : String := if node.toUpper = "GND" then "0" else node

/-- Reads a node: a name, or a number that consists of digits. -/
def takeNode (l : Line) : Except Error (Taken l String) := do
  let t := l.next
  if t.kind = .identifier || (t.kind = .number && t.text.toList.all Numeral.isDigit) then
    let ⟨(t, rest), h⟩ ← l.take t.kind
    return ⟨(groundedName t.text, rest), h⟩
  else throw (l.complaint s!"expected node name, got {Text.quoted t.text}")

/-- Reads a number. -/
def takeNumber (l : Line) : Except Error (Taken l α) := do
  let t := l.next
  if t.kind = .number || t.kind = .identifier then
    let ⟨(t, rest), h⟩ ← l.take t.kind
    match ← readValue t.text with
    | some v => return ⟨(v, rest), h⟩
    | none => throw (l.complaint s!"invalid number: {t.text}")
  else throw (l.complaint "expected a number")

/-- Reads a number or an expression. -/
def takeValue (l : Line) : Except Error (Taken l (Expr α)) := do
  if l.next.kind = .expression then
    let ⟨(t, rest), h⟩ ← l.take .expression
    match Expr.parse t.text with
    | .ok e => return ⟨(e, rest), h⟩
    | .error e => throw (l.complaint s!"in expression \x7b{t.text}\x7d: {e.message}")
  else
    let ⟨(v, rest), h⟩ ← l.takeNumber
    return ⟨(.mkNum v, rest), h⟩

/-! ## Directives -/

/-- Reads the settings of a model up to the bracket that closes them. -/
def takeModelSettings (settings : List (String × α)) (l : Line) :
    Except Error (List (String × α) × Line) := do
  if l.atEnd || l.next.kind = .closeParen then
    let ⟨(_, rest), _⟩ ← l.take .closeParen
    return (settings, rest)
  else
    let ⟨(key, l₁), _h₁⟩ ← l.take .identifier
    let ⟨(_, l₂), _h₂⟩ ← l₁.take .equals
    let ⟨(value, l₃), _h₃⟩ ← l₂.takeNumber
    takeModelSettings (assign settings (Text.lower key.text) value) l₃
termination_by l.tokens.length
decreasing_by
  simp only at *
  omega

/-- Reads a model: its name, its kind and settings in brackets. -/
def takeModel (l : Line) : Except Error (Model α × Line) := do
  let ⟨(name, l), _⟩ ← l.take .identifier
  let ⟨(kind, l), _⟩ ← l.take .identifier
  match ModelKind.ofWord? kind.text with
  | none => throw (l.complaint s!"unknown model type: {kind.text}")
  | some modelKind =>
    let model (settings : List (String × α)) : Model α := ⟨name.text, modelKind, settings, l.number⟩
    if l.next.kind = .openParen then
      let ⟨(_, l), _⟩ ← l.take .openParen
      let (settings, l) ← takeModelSettings [] l
      return (model settings, l)
    else return (model [], l)

/-- Reads a parameter: its name, an equals sign or none, and its value. -/
def takeParameter (l : Line) : Except Error (Parameter α × Line) := do
  let ⟨(name, l), _⟩ ← l.take .identifier
  if l.next.kind = .equals then
    let ⟨(_, l), _⟩ ← l.take .equals
    let ⟨(value, l), _⟩ ← l.takeNumber
    return (⟨name.text, value, l.number⟩, l)
  else
    let ⟨(value, l), _⟩ ← l.takeNumber
    return (⟨name.text, value, l.number⟩, l)

/-- Reads a directive into a netlist. -/
def takeDirective (n : Netlist α) (l : Line) : Except Error (Netlist α × Line) := do
  let ⟨(directive, l), _⟩ ← l.take .directive
  match Text.lower directive.text with
  | ".input" =>
    let ⟨(node, l), _⟩ ← l.takeNode
    let n := { n with inputNode? := some node }
    if l.next.kind = .identifier then
      let ⟨(name, l), _⟩ ← l.take .identifier
      return ({ n with inputName? := some name.text }, l)
    else return (n, l)
  | ".output" =>
    let ⟨(node, l), _⟩ ← l.takeNode
    return ({ n with outputNode? := some node }, l)
  | ".node" =>
    let ⟨(node, l), _⟩ ← l.takeNode
    return (n.addNode node, l)
  | ".param" =>
    let (p, l) ← l.takeParameter
    if n.parameters.any (·.name == p.name) then throw (.duplicateDefinition p.name)
    return ({ n with parameters := n.parameters ++ [p] }, l)
  | ".model" =>
    let (m, l) ← l.takeModel
    if n.models.any (·.name == m.name) then throw (.duplicateDefinition m.name)
    return ({ n with models := n.models ++ [m] }, l)
  | _ => throw (l.complaint s!"unknown directive: {directive.text}")

/-! ## Elements -/

/-- Reads as many nodes as there are terminals, or as the line has. -/
def takeNodes (l : Line) : (terminals : List String) → Except Error (List String × Line)
  | [] => .ok ([], l)
  | _ :: terminals => do
    if l.atEnd then return ([], l)
    else
      let ⟨(node, l), _⟩ ← l.takeNode
      let (nodes, l) ← takeNodes l terminals
      return (node :: nodes, l)

/-- Reads the values, the model and the settings of an element up to the end of its line. -/
def takeSettings (e : Element α) (l : Line) : Except Error (Element α × Line) := do
  if l.atEnd then return (e, l)
  else match l.next.kind with
  | .identifier =>
    let ⟨(word, l₁), _h₁⟩ ← l.take .identifier
    if l₁.next.kind = .equals then
      let ⟨(_, l₂), _h₂⟩ ← l₁.take .equals
      let ⟨(value, l₃), _h₃⟩ ← l₂.takeValue
      takeSettings (e.set (Text.lower word.text) value) l₃
    else if word.text.toUpper = "DC" || word.text.toUpper = "AC" then
      let ⟨(value, l₂), _h₂⟩ ← l₁.takeValue
      takeSettings (e.set (Text.lower word.text) value) l₂
    else
      match ← readValue word.text with
      | some v => takeSettings (e.addValue (.mkNum v)) l₁
      | none => takeSettings { e with model? := some word.text } l₁
  | .number | .expression =>
    let ⟨(value, l₁), _h₁⟩ ← l.takeValue
    takeSettings (e.addValue value) l₁
  | _ =>
    throw (l.complaint s!"unexpected {Text.quoted l.next.text} in component '{e.name}'")
termination_by l.tokens.length
decreasing_by
  all_goals simp only at *
  all_goals omega

/-- Reads the kind of an element and its name, which may be one word. -/
def takeKind (l : Line) : Except Error (ElementKind × String × Line) := do
  let ⟨(word, l), _⟩ ← l.take .identifier
  match ElementKind.ofKeyword? word.text with
  | some kind =>
    let ⟨(name, l), _⟩ ← l.take .identifier
    return (kind, name.text, l)
  | none =>
    match ElementKind.ofName? word.text with
    | some kind => return (kind, word.text, l)
    | none => throw (.unknownComponentType word.text l.number)

/-- Reads an element. -/
def takeElement (l : Line) : Except Error (Element α × Line) := do
  let (kind, name, l) ← l.takeKind
  let (nodes, l) ← takeNodes l kind.terminals
  let e : Element α := ⟨kind, name, nodes, none, none, [], l.number⟩
  if nodes.length < kind.terminals.length then throw e.wrongNodes
  else takeSettings e l

end Line

/-! ## Netlists -/

/-- Reads a line into a netlist. -/
def readLine (n : Netlist α) (l : Line) : Except Error (Netlist α) := do
  if l.atEnd then
    match l.fault with
    | some e => throw e
    | none => return n
  else
    let (n, rest) ← match l.next.kind with
      | .directive => l.takeDirective n
      | .identifier =>
        let (e, rest) ← l.takeElement
        pure ({ n with elements := n.elements ++ [e] }, rest)
      | _ => throw (l.complaint s!"unexpected token: {Text.quoted l.next.text}")
    if rest.atEnd then return n
    else throw (l.complaint s!"unexpected trailing token: {Text.quoted rest.next.text}")

/-- The netlist that a text denotes. -/
def parse (text : String) : Except Error (Netlist α) :=
  ((Line.ofText text).foldlM readLine empty).map withElementNodes

end AnalogCircuit.Netlist
