/-!
# What can go wrong

One type for every failure between the text of a netlist and the last sample of a run, and the sentence
in which each is reported. Numbers inside a sentence are kept as the text in which they are written.
-/

namespace AnalogCircuit

/-- A failure. Lines and columns count from one, offsets from zero. -/
inductive Error where
  /-- No token can be read at a place of the netlist. -/
  | lexical (line column : Nat) (message : String)
  /-- A line of the netlist is malformed. -/
  | grammar (line : Nat) (message : String)
  /-- The text of an expression is malformed. -/
  | expression (offset : Nat) (message : String)
  | invalidComponent (name : String) (line : Nat) (message : String)
  | unknownComponentType (type : String) (line : Nat)
  | undefinedModel (model component : String)
  | missingGround
  | nodeNotFound (node : String)
  | missingOutput
  | duplicateComponent (name : String)
  | duplicateDefinition (name : String)
  | invalidTopology (message : String)
  | underdetermined (equations unknowns : Nat)
  | overdetermined (equations unknowns : Nat)
  | duplicateUnknown (name : String)
  | currentReassigned (terminal : String)
  | currentUnassigned (terminal : String)
  | undefinedSymbol (symbol : String)
  /-- The linear part of a system has no unique solution. -/
  | singularSystem (message : String)
  | unsupportedFunction (name : String)
  /-- A derivative or an integral is left where a program is wanted. -/
  | unsupportedOperator (expression : String)
  | arityMismatch (name : String) (expected found : Nat)
  /-- An output is no longer a number. -/
  | diverged (time output : String)
  /-- A matrix cannot be factored. -/
  | singularMatrix
  | invalidSetting (message : String)
  | bufferLength (name : String) (expected found : Nat)
  | unknownBuffer (name : String)
  | unknownParameter (name : String)
  | noIterations
  | alreadyDiverged
  | unreadableFile (path cause : String)
  | audioInput (message : String)
  | audioOutput (message : String)
  /-- The third byte of a scale suffix lies inside a character. -/
  | splitSuffix (suffix : String)
  /-- Samples are wanted for a block that has no room, while a sample is incomplete. -/
  | noRoom
  /-- Something that is numbered is asked for beyond the last one. -/
  | outOfRange (kind : String) (index count : Nat)
  /-- A matrix or a right-hand side has not as many entries as it has to have. -/
  | entryCount (expected found : Nat)
deriving DecidableEq, Repr

namespace Error

/-- The sentence that reports a failure. -/
def message : Error → String
  | lexical line column m => s!"Lexer error at line {line}, column {column}: {m}"
  | grammar line m => s!"Parse error at line {line}: {m}"
  | expression offset m => s!"Expression error at offset {offset}: {m}"
  | invalidComponent name line m => s!"Invalid component '{name}' at line {line}: {m}"
  | unknownComponentType type line => s!"Unknown component type '{type}' at line {line}"
  | undefinedModel model component =>
    s!"Undefined model '{model}' referenced by component '{component}'"
  | missingGround => "Circuit has no ground node (use '0' or 'GND')"
  | nodeNotFound node => s!"Node '{node}' not found"
  | missingOutput => "No output node specified (use '.output <node>')"
  | duplicateComponent name => s!"Duplicate component name '{name}'"
  | duplicateDefinition name => s!"Duplicate definition '{name}'"
  | invalidTopology m => s!"Invalid circuit topology: {m}"
  | underdetermined equations unknowns =>
    s!"System is underdetermined: {equations} equations for {unknowns} unknowns"
  | overdetermined equations unknowns =>
    s!"System is overdetermined: {equations} equations for {unknowns} unknowns"
  | duplicateUnknown name => s!"Unknown '{name}' is already defined"
  | currentReassigned terminal => s!"Current of terminal '{terminal}' assigned more than once"
  | currentUnassigned terminal => s!"Current of terminal '{terminal}' was never assigned"
  | undefinedSymbol symbol => s!"Equation references undefined symbol '{symbol}'"
  | singularSystem m => s!"Singular system: {m}"
  | unsupportedFunction name => s!"Unsupported function '{name}'"
  | unsupportedOperator text => s!"Unsupported operator in '{text}'"
  | arityMismatch name expected found =>
    s!"Function '{name}' expects {expected} arguments, got {found}"
  | diverged time output => s!"Simulation diverged after t={time}s (output '{output}')"
  | singularMatrix => "Matrix is singular"
  | invalidSetting m => s!"Invalid simulation parameter: {m}"
  | bufferLength name expected found => s!"Buffer '{name}' has {found} samples, expected {expected}"
  | unknownBuffer name => s!"No input or unknown named '{name}'"
  | unknownParameter name => s!"No parameter named '{name}'"
  | noIterations => "Iteration budget must be positive"
  | alreadyDiverged => "Simulation has diverged; reset before running again"
  | unreadableFile path cause => s!"Failed to read circuit file '{path}': {cause}"
  | audioInput m => s!"Audio input error: {m}"
  | audioOutput m => s!"Audio output error: {m}"
  | splitSuffix suffix => s!"Scale suffix '{suffix}' is cut inside a character"
  | noRoom => "No room for the pending sample"
  | outOfRange kind index count => s!"There are {count} {kind}, number {index} is not one of them"
  | entryCount expected found => s!"Expected {expected} entries, got {found}"

/-- The failures of a system of equations, found before any sample is produced. -/
def isStructural : Error → Bool
  | underdetermined _ _ | overdetermined _ _ | duplicateUnknown _ | currentReassigned _
  | currentUnassigned _ | undefinedSymbol _ | singularSystem _ => true
  | _ => false

end Error

/-- A computation that succeeds succeeds step by step. -/
theorem exists_of_bind_eq_ok {β γ : Type} {m : Except Error β} {f : β → Except Error γ} {c : γ}
    (h : (m >>= f) = .ok c) : ∃ b, m = .ok b ∧ f b = .ok c := by
  cases m with
  | error e => cases h
  | ok b => exact ⟨b, rfl, h⟩

end AnalogCircuit
