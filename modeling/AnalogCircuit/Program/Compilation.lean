import AnalogCircuit.Program.Emission
import AnalogCircuit.Transient.UpdateLaw
/-!
# Compilation

The program of an update law: a loop for the unknowns that are found by iteration, with the work that
does not depend on them in front of it, and then the assignments, each stored before the next is
evaluated.
-/

namespace AnalogCircuit.Program

variable {α : Type} [Scalar α]

/-! ## The registers of symbols -/

/-- The layout for a law. -/
def layoutOf (law : UpdateLaw α) : Layout :=
  ⟨law.unknowns.length, law.inputs.length, law.parameters.length⟩

/-- The symbols that a program may read and their registers; of two entries for a symbol the earlier one
counts. -/
def symbolTable (law : UpdateLaw α) : List (Symbol × Reg) :=
  let l := layoutOf law
  let unknowns := law.unknowns.zipIdx.flatMap fun (u, i) =>
    [(u.current, l.unknown i), (u.previous, l.previousUnknown i)]
  let inputs := law.inputs.zipIdx.flatMap fun (x, i) =>
    [(x.current, l.input i), (x.previous, l.previousInput i)]
  let parameters := law.parameters.zipIdx.map fun (p, i) => (p.symbol, l.parameter i)
  (unknowns ++ inputs ++ parameters ++ [(Symbol.previousTime, l.previousTime)]).reverse

/-- The place of an unknown among the unknowns of a law. -/
def placeOf? (law : UpdateLaw α) (u : Symbol) : Option Nat := law.unknowns.zipIdx.reverse.lookup u

/-! ## Blocks -/

/-- Moves the pending instructions into a block, if there are any. -/
def flush : Emit α (List Block) := fun s => .ok s.flush

/-- The blocks of an iteration. -/
def newtonBlocks (law : UpdateLaw α) (registerOf : Symbol → Option Reg) (n : NewtonIteration α) :
    Emit α (List Block) := do
  let l := layoutOf law
  let unknowns := (n.unknowns.filterMap (placeOf? law)).map fun i => (l.unknown i, l.previousUnknown i)
  modify (·.openLoop (unknowns.map (·.1)))
  let residuals ← n.residuals.mapM (Emit.expr registerOf)
  let jacobian ← n.entries.mapM fun (i, j, e) => return (i, j, ← Emit.expr registerOf e)
  let body ← modifyGet Emission.closeLoop
  return (← flush) ++ [.newton { unknowns, body, residuals, jacobian }]

/-- Emits an assignment. -/
def assign (law : UpdateLaw α) (registerOf : Symbol → Option Reg) (a : Assignment α) :
    Emit α Unit := do
  let value ← Emit.expr registerOf a.value
  match placeOf? law a.unknown with
  | some i => modify (·.copy ((layoutOf law).unknown i) value)
  | none => return

/-- The blocks of a law. -/
def blocksOf (law : UpdateLaw α) (registerOf : Symbol → Option Reg) : Emit α (List Block) := do
  let loops ← match law.newton? with
    | some n => newtonBlocks law registerOf n
    | none => pure []
  law.assignments.forM (assign law registerOf)
  return loops ++ (← flush)

/-- The program of a law, whose iteration ends once every correction is below `tolerance`. -/
def ofLaw (law : UpdateLaw α) (tolerance : α) : Except Error (Program α) := do
  let layout := layoutOf law
  let table := symbolTable law
  let (blocks, s) ← (blocksOf law (table.lookup ·)).run (.start layout.size)
  return {
    layout
    unknowns := law.unknowns
    inputs := law.inputs
    parameters := law.parameters.map (·.symbol)
    blocks
    constants := s.constants
    registers := s.next
    tolerance }

end AnalogCircuit.Program
