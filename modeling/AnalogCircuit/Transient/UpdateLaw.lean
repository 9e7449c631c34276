import AnalogCircuit.Transient.Discretization
import AnalogCircuit.Transient.Partition
/-!
# Update laws

What takes a circuit from one sample to the next: a Newton iteration for the unknowns that enter
nonlinearly, with its residuals and their Jacobian, and then one assignment for each other unknown. The
expressions refer to the values of unknowns and inputs at the sample and at the one before, to the
parameters and to the time of the previous sample.
-/

namespace AnalogCircuit

variable {α : Type} [Scalar α]

/-! ## Newton iterations -/

/-- A system of residuals, each to be zero, as many as unknowns. -/
structure NewtonIteration (α : Type) where
  unknowns : List Symbol
  residuals : List (Expr α)

namespace NewtonIteration

/-- The partial derivatives of the residuals, a row for each residual. -/
def jacobian (n : NewtonIteration α) : List (List (Expr α)) :=
  n.residuals.map fun r => n.unknowns.map r.diff

/-- The entries of the Jacobian that are not zero everywhere, with their row and column. -/
def entries (n : NewtonIteration α) : List (Nat × Nat × Expr α) :=
  n.jacobian.zipIdx.flatMap fun (row, i) =>
    row.zipIdx.filterMap fun (e, j) => if e.isZero then none else some (i, j, e)

end NewtonIteration

/-! ## Update laws -/

/-- The law by which a circuit goes on from sample to sample. -/
structure UpdateLaw (α : Type) where
  sampleRate : α
  /-- All unknowns that have a history. -/
  unknowns : List Symbol
  inputs : List Symbol
  parameters : List (Parameter α)
  /-- The unknowns found by iteration, if there are any. -/
  newton? : Option (NewtonIteration α)
  /-- The other unknowns, in the order of evaluation. -/
  assignments : List (Assignment α)

namespace UpdateLaw

/-- The time from one sample to the next. -/
def step (law : UpdateLaw α) : α := 1 / law.sampleRate

/-- The nominal value of a symbol: the default of a parameter, and zero for any other. -/
def nominal (system : System α) (s : Symbol) : Option α :=
  some (((system.parameters.reverse.find? (·.symbol == s)).map (·.default)).getD 0)

/-- Refuses a sample rate that is not a positive number. -/
def requireRate (rate : α) : Except Error Unit :=
  if Scalar.isFinite rate && Scalar.lt 0 rate then .ok ()
  else .error (.invalidSetting s!"sample rate must be positive, got {Scalar.toText rate}")

/-- The update law of a system at a sample rate. -/
def ofSystem (system : System α) (sampleRate : α) : Except Error (UpdateLaw α) := do
  requireRate sampleRate
  let d := system.discretize (1 / sampleRate)
  let p ← Partition.ofResiduals d.unknowns (d.equations.map (·.residual)) (nominal system)
  return {
    sampleRate
    unknowns := d.unknowns
    inputs := system.inputs
    parameters := system.parameters
    newton? := if p.iterated.isEmpty then none else some ⟨p.iterated, p.residuals⟩
    assignments := p.assignments }

/-- The written form: the sample rate, the iteration and the assignments, each in a line of its own. -/
def text (law : UpdateLaw α) : String :=
  let newton := match law.newton? with
    | none => []
    | some n =>
      let residual : Symbol × Expr α → String := fun (u, r) => s!"  {u.text}: {r.text} == 0"
      ["newton \x7b"] ++ (n.unknowns.zip n.residuals).map residual ++ ["\x7d"]
  let parts := s!"sample rate {Scalar.toText law.sampleRate} Hz" ::
    newton ++ law.assignments.map fun a => s!"{a.unknown.text} = {a.value.text}"
  String.join (parts.map (· ++ "\n"))

end UpdateLaw

end AnalogCircuit
