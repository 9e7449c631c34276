import AnalogCircuit.Expr.Basic
/-!
# Register programs

The update law of a circuit runs as a program on numbered registers. The first registers have fixed
meanings: the previous values of the unknowns, the inputs, the previous inputs, the parameters, the time
of the previous sample and the unknowns; constants and intermediate values follow.

A register that does not exist reads as zero and cannot be written, so execution is total.
-/

namespace AnalogCircuit

/-- The number of a register. -/
abbrev Reg : Type := Nat

/-! ## Instructions -/

/-- How a value is computed from registers. -/
inductive Operation where
  | add (a b : Reg)
  | sub (a b : Reg)
  | mul (a b : Reg)
  | div (a b : Reg)
  | neg (a : Reg)
  | powInt (a : Reg) (exponent : Int)
  | pow (a b : Reg)
  | unary (function : Builtin) (a : Reg)
  | binary (function : Builtin) (a b : Reg)
  | compare (operator : Comparison) (a b : Reg)
  /-- The second register where the first is not zero, else the third. -/
  | select (condition a b : Reg)
  | copy (a : Reg)
deriving DecidableEq, Repr

/-- The registers that an operation reads. -/
def Operation.operands : Operation → List Reg
  | neg a | powInt a _ | unary _ a | copy a => [a]
  | add a b | sub a b | mul a b | div a b | pow a b | binary _ a b | compare _ a b => [a, b]
  | select c a b => [c, a, b]

/-- The value of an operation, with the values of registers given by `r`. -/
def Operation.value {α : Type} [Scalar α] (r : Reg → α) : Operation → α
  | add a b => r a + r b
  | sub a b => r a - r b
  | mul a b => r a * r b
  | div a b => r a / r b
  | neg a => -r a
  | powInt a n => Scalar.powInt (r a) n
  | pow a b => Scalar.pow (r a) (r b)
  | unary f a => Scalar.unary f (r a)
  | binary f a b => Scalar.binary f (r a) (r b)
  | compare c a b => Scalar.ofBool (c.holds (r a) (r b))
  | select c a b => if Scalar.isZero (r c) then r b else r a
  | copy a => r a

/-- The written form. -/
def Operation.text : Operation → String
  | add a b => s!"r{a} + r{b}"
  | sub a b => s!"r{a} - r{b}"
  | mul a b => s!"r{a} * r{b}"
  | div a b => s!"r{a} / r{b}"
  | neg a => s!"-r{a}"
  | powInt a n => s!"powi r{a} {n}"
  | pow a b => s!"powf r{a} r{b}"
  | unary f a => s!"{f.name} r{a}"
  | binary f a b => s!"{f.name} r{a} r{b}"
  | compare c a b => s!"r{a} {c.sign} r{b}"
  | select c a b => s!"select r{c} r{a} r{b}"
  | copy a => s!"r{a}"

/-- An operation and the register that takes its value. -/
structure Instruction where
  target : Reg
  operation : Operation
deriving DecidableEq, Repr

/-- The written form: the target, and how its value is computed. -/
def Instruction.text (i : Instruction) : String := s!"r{i.target} = {i.operation.text}"

/-! ## Blocks -/

/-- A loop that corrects unknowns until a system of residuals vanishes. -/
structure Loop where
  /-- For each iterated unknown its register and that of its previous value. -/
  unknowns : List (Reg × Reg)
  /-- Computes the residuals and the entries of their Jacobian. -/
  body : List Instruction
  residuals : List Reg
  /-- Row, column and register of the entries that are not zero everywhere. -/
  jacobian : List (Nat × Nat × Reg)
deriving DecidableEq, Repr

/-- A part of a program. -/
inductive Block where
  | straight (instructions : List Instruction)
  | newton (loop : Loop)
deriving DecidableEq, Repr

/-- The instructions of a block; those of a loop are counted once. -/
def Block.instructions : Block → List Instruction
  | straight instructions => instructions
  | newton loop => loop.body

/-! ## Fixed registers -/

/-- How many registers each fixed group has. -/
structure Layout where
  unknowns : Nat
  inputs : Nat
  parameters : Nat
deriving DecidableEq, Repr

namespace Layout

/-- The previous value of an unknown. -/
def previousUnknown (_ : Layout) (i : Nat) : Reg := i

/-- The value of an input. -/
def input (l : Layout) (i : Nat) : Reg := l.unknowns + i

/-- The previous value of an input. -/
def previousInput (l : Layout) (i : Nat) : Reg := l.unknowns + l.inputs + i

/-- The value of a parameter. -/
def parameter (l : Layout) (i : Nat) : Reg := l.unknowns + 2 * l.inputs + i

/-- The time of the previous sample. -/
def previousTime (l : Layout) : Reg := l.unknowns + 2 * l.inputs + l.parameters

/-- The value of an unknown. -/
def unknown (l : Layout) (i : Nat) : Reg := l.previousTime + 1 + i

/-- The first register behind the fixed groups. -/
def size (l : Layout) : Reg := l.unknown l.unknowns

end Layout

/-! ## Programs -/

/-- An executable update law. -/
structure Program (α : Type) where
  layout : Layout
  unknowns : List Symbol
  inputs : List Symbol
  parameters : List Symbol
  blocks : List Block
  /-- The registers that hold constants, in the order of allocation. -/
  constants : List (Reg × α)
  registers : Nat
  /-- A loop ends once every correction is smaller than this. -/
  tolerance : α

namespace Program

variable {α : Type}

/-- Some block is a loop over at least one unknown. -/
def hasLoop (p : Program α) : Bool :=
  p.blocks.any fun
    | .newton loop => !loop.unknowns.isEmpty
    | .straight _ => false

/-- The number of instructions. -/
def instructionCount (p : Program α) : Nat :=
  p.blocks.foldr (fun b n => b.instructions.length + n) 0

end Program

end AnalogCircuit
