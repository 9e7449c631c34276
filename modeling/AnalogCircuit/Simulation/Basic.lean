import AnalogCircuit.Circuit.Basic
import AnalogCircuit.Program.Compilation
import AnalogCircuit.Program.Workspace
/-!
# Simulations

A simulation is a compiled circuit, the workspace of its program and its place in time. It produces
samples at the output rate and takes several internal steps for each. When a sample is not finite, the
simulation has diverged and refuses to go on until it is reset.
-/

namespace AnalogCircuit

variable {α : Type} [Scalar α]

/-! ## Settings -/

/-- The settings of a simulation. -/
structure Settings (α : Type) where
  /-- Output samples for each second. -/
  sampleRate : α
  /-- Internal steps for each output sample. -/
  oversample : Nat
  /-- The most corrections of an iteration in one internal step. -/
  iterations : Nat
  /-- An iteration ends once every correction is smaller than this. -/
  tolerance : α

namespace Settings

/-- The settings used when nothing else is asked for. -/
def standard : Settings α := ⟨48000.0, 8, 8, 1e-9⟩

/-- Refuses settings with which nothing can be simulated. -/
def validate (s : Settings α) : Except Error Unit := do
  UpdateLaw.requireRate s.sampleRate
  if s.oversample = 0 then throw (.invalidSetting "oversample must be at least 1")
  if s.iterations = 0 then throw .noIterations

end Settings

/-! ## State -/

/-- Where a simulation is in its life. -/
inductive Phase where
  /-- No sample has been produced since the beginning or the last reset. -/
  | fresh
  | running
  /-- A sample was not finite. -/
  | diverged
deriving DecidableEq, Repr

/-- A circuit in motion. -/
structure Simulation (α : Type) where
  law : UpdateLaw α
  program : Program α
  oversample : Nat
  iterations : Nat
  /-- The input of the circuit, if it has one. -/
  input? : Option String
  /-- The unknown at the output of the circuit. -/
  output? : Option String
  workspace : Workspace α
  /-- The values of the parameters. -/
  parameters : List α
  /-- The values of the inputs at the last output sample. -/
  lastInputs : List α
  /-- Output samples since the beginning or the last reset. -/
  elapsed : Nat
  phase : Phase

namespace Simulation

/-- Sets the registers of all parameters. -/
def loadParameters (p : Program α) (values : List α) (rs : Registers α) : Registers α :=
  Layout.fill (p.layout.parameter 0) values rs

/-- A simulation of an update law; its sample rate is that of the internal steps. -/
def ofLaw (law : UpdateLaw α) (settings : Settings α) : Except Error (Simulation α) := do
  settings.validate
  let program ← Program.ofLaw law settings.tolerance
  let parameters := law.parameters.map (·.default)
  return {
    law, program, parameters
    oversample := settings.oversample
    iterations := settings.iterations
    input? := none
    output? := none
    workspace := program.workspace.update (loadParameters program parameters)
    lastInputs := List.replicate law.inputs.length 0
    elapsed := 0
    phase := .fresh }

/-- A simulation of a circuit, from its input to its output. -/
def ofCircuit (c : Circuit α) (settings : Settings α) : Except Error (Simulation α) := do
  settings.validate
  let law ← UpdateLaw.ofSystem (← c.equations) (settings.sampleRate * Scalar.ofNat settings.oversample)
  let s ← ofLaw law settings
  return { s with input? := c.inputName?, output? := some c.outputName }

/-! ## Time -/

/-- Output samples for each second. -/
def sampleRate (s : Simulation α) : α := s.law.sampleRate / Scalar.ofNat s.oversample

/-- The time from one output sample to the next. -/
def period (s : Simulation α) : α := 1 / s.sampleRate

/-- The time of an output sample, given how many came before it. -/
def timeOf (s : Simulation α) (sample : Nat) : α := Scalar.ofNat sample * s.period

/-- The time of the next output sample. -/
def time (s : Simulation α) : α := s.timeOf s.elapsed

/-! ## Names -/

/-- The place of a name among symbols. -/
def placeOf? (symbols : List Symbol) (name : String) : Option Nat :=
  symbols.findIdx? (·.name == name)

/-- The place of an unknown. -/
def unknown? (s : Simulation α) (name : String) : Option Nat := placeOf? s.law.unknowns name

/-- The place of an input. -/
def inputPlace? (s : Simulation α) (name : String) : Option Nat := placeOf? s.law.inputs name

/-- The place of a parameter. -/
def parameterPlace? (s : Simulation α) (name : String) : Option Nat :=
  placeOf? (s.law.parameters.map (·.symbol)) name

/-- The latest value of an unknown. -/
def latest (s : Simulation α) (i : Nat) : α :=
  s.workspace.registers.value (s.program.layout.previousUnknown i)

/-- The latest value of an unknown or an input. -/
def value? (s : Simulation α) (name : String) : Option α :=
  match s.unknown? name with
  | some i => some (s.latest i)
  | none => (s.inputPlace? name).map fun i => s.workspace.registers.value (s.program.layout.input i)

/-! ## Parameters and reset -/

/-- Gives a parameter a value, which it keeps until it gets another. -/
def bind (s : Simulation α) (i : Nat) (v : α) : Simulation α :=
  { s with
    parameters := s.parameters.set i v
    workspace := s.workspace.update (·.write (s.program.layout.parameter i) v) }

/-- The place of a parameter, which has to exist. -/
def requireParameter (s : Simulation α) (name : String) : Except Error Nat :=
  match s.parameterPlace? name with
  | some i => .ok i
  | none => .error (.unknownParameter name)

/-- Gives the parameter of a name a value. -/
def setParameter (s : Simulation α) (name : String) (v : α) : Except Error (Simulation α) :=
  (s.requireParameter name).map fun i => s.bind i v

/-- The value of a parameter. -/
def parameter? (s : Simulation α) (name : String) : Option α :=
  (s.parameterPlace? name).bind fun i => s.parameters[i]?

/-- Gives all parameters their defaults. -/
def resetParameters (s : Simulation α) : Simulation α :=
  let defaults := s.law.parameters.map (·.default)
  { s with
    parameters := defaults
    workspace := s.workspace.update (loadParameters s.program defaults) }

/-- Goes back to the beginning; the parameters keep their values. -/
def reset (s : Simulation α) : Simulation α :=
  { s with
    workspace := s.workspace.update s.program.layout.clear
    lastInputs := List.replicate s.law.inputs.length 0
    elapsed := 0
    phase := .fresh }

end Simulation

end AnalogCircuit
