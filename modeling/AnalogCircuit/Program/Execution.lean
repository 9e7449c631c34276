import AnalogCircuit.Linear.Factors
import AnalogCircuit.Program.Basic
/-!
# Execution

A program runs on registers: straight blocks once, loops until the corrections are small, their budget
is spent or the Jacobian is singular. Registers are the whole state from one sample to the next.
-/

namespace AnalogCircuit

variable {α : Type} [Scalar α]

/-! ## Registers -/

/-- The values of the registers. -/
abbrev Registers (α : Type) : Type := Array α

namespace Registers

/-- The value of a register. -/
def value (rs : Registers α) (r : Reg) : α := rs.getD r 0

/-- Changes the value of a register. -/
def write (rs : Registers α) (r : Reg) (v : α) : Registers α := rs.setIfInBounds r v

/-- Changes the value of a register that exists. -/
def writeExisting (rs : Registers α) (r : Reg) (v : α) : Except Error (Registers α) :=
  if r < rs.size then .ok (rs.write r v) else .error (.outOfRange "registers" r rs.size)

/-- Copies several registers, each to a register of its own. -/
def writeAll (rs : Registers α) (vs : List (Reg × α)) : Registers α :=
  vs.foldl (fun rs (r, v) => rs.write r v) rs

end Registers

/-- Executes an instruction. -/
def Instruction.execute (i : Instruction) (rs : Registers α) : Registers α :=
  rs.write i.target (i.operation.value rs.value)

/-- Executes instructions in order. -/
def executeAll (is : List Instruction) (rs : Registers α) : Registers α :=
  is.foldl (fun rs i => i.execute rs) rs

/-! ## Loops -/

namespace Loop

/-- The number of iterated unknowns. -/
def size (l : Loop) : Nat := l.unknowns.length

/-- Takes the previous values as first estimates. -/
def begin (l : Loop) (rs : Registers α) : Registers α :=
  l.unknowns.foldl (fun rs (now, before) => rs.write now (rs.value before)) rs

/-- The entries of the Jacobian, row after row. -/
def entries (l : Loop) (rs : Registers α) : List α :=
  let n := l.size
  (l.jacobian.foldl (fun a (i, j, r) => a.setIfInBounds (i * n + j) (rs.value r))
    (Array.replicate (n * n) 0)).toList

/-- The corrections by which the residuals vanish, were they linear; none if the Jacobian is singular. -/
def corrections? (l : Loop) (rs : Registers α) : Option (List α) :=
  match (Factors.factor (l.entries rs) : Factors α l.size × Option Error) with
  | (f, none) => some (f.solve (l.residuals.map rs.value))
  | (_, some _) => none

/-- Subtracts corrections from the iterated unknowns. -/
def correct (l : Loop) (corrections : List α) (rs : Registers α) : Registers α :=
  (l.unknowns.zip corrections).foldl (fun rs ((now, _), d) => rs.write now (rs.value now - d)) rs

/-- The size of the largest correction. -/
def largest (l : Loop) (corrections : List α) : α :=
  (l.unknowns.zip corrections).foldl (fun m (_, d) => Scalar.max m (Scalar.abs d)) 0

/-- Corrects the estimates as often as the budget allows and the tolerance demands. -/
def iterate (l : Loop) (tolerance : α) : (budget : Nat) → Registers α → Registers α
  | 0, rs => rs
  | budget + 1, rs =>
    let rs := executeAll l.body rs
    match l.corrections? rs with
    | none => rs
    | some ds =>
      let rs := l.correct ds rs
      if Scalar.lt (l.largest ds) tolerance then rs else l.iterate tolerance budget rs

end Loop

/-- Executes a block. -/
def Block.execute (tolerance : α) (budget : Nat) (b : Block) (rs : Registers α) : Registers α :=
  match b with
  | .straight is => executeAll is rs
  | .newton l => l.iterate tolerance budget (l.begin rs)

/-! ## Programs -/

namespace Program

/-- The registers before the first sample: zero except for the constants. -/
def registers₀ (p : Program α) : Registers α :=
  Registers.writeAll (Array.replicate p.registers 0) p.constants

/-- Advances by one sample, with at most `budget` corrections in each loop. -/
def step (p : Program α) (budget : Nat) (rs : Registers α) : Registers α :=
  p.blocks.foldl (fun rs b => b.execute p.tolerance budget rs) rs

end Program

namespace Layout

/-- Sets the registers of a group, from the first on. -/
def fill (first : Reg) (vs : List α) (rs : Registers α) : Registers α :=
  rs.writeAll (vs.zipIdx first |>.map fun (v, r) => (r, v))

/-- The values of the unknowns and of the inputs become the previous ones. -/
def advance (l : Layout) (rs : Registers α) : Registers α :=
  let unknowns := (List.range l.unknowns).map fun i => rs.value (l.unknown i)
  let inputs := (List.range l.inputs).map fun i => rs.value (l.input i)
  fill (l.previousInput 0) inputs (fill (l.previousUnknown 0) unknowns rs)

/-- Forgets all values of unknowns and inputs. -/
def clear (l : Layout) (rs : Registers α) : Registers α :=
  fill (l.unknown 0) (List.replicate l.unknowns 0)
    (fill 0 (List.replicate (l.parameter 0) 0) rs)

end Layout

end AnalogCircuit
