import AnalogCircuit.Program.Execution
/-!
# Workspaces

Besides its registers a program has buffers in which its loops compute their corrections. They are as large as the
largest loop needs, are made once, and all loops of all samples share them: whatever one leaves there the next one
finds. A loop clears its part of the Jacobian once, in front of the first pass; a pass writes only the entries that
are not zero everywhere.
-/

namespace AnalogCircuit

variable {α : Type} [Scalar α]

/-- The buffers of the loops. -/
structure Scratch (α : Type) where
  /-- The entries of a Jacobian, row after row. -/
  jacobian : Array α
  residual : Array α
  correction : Array α
  /-- How many unknowns the last loop had, and the factors of its last Jacobian. -/
  factors : (n : Nat) × Factors α n

/-- Registers and buffers: all that a program changes. -/
structure Workspace (α : Type) where
  registers : Registers α
  scratch : Scratch α

/-- Changes the registers. -/
def Workspace.update (w : Workspace α) (f : Registers α → Registers α) : Workspace α :=
  { w with registers := f w.registers }

/-! ## Buffers -/

namespace Scratch

/-- Buffers for loops over at most `n` unknowns. -/
def ofSize (n : Nat) : Scratch α where
  jacobian := Array.replicate (n * n) 0
  residual := Array.replicate n 0
  correction := Array.replicate n 0
  factors := ⟨n, Factors.ofEntries []⟩

/-- Makes ready for a loop over `n` unknowns. -/
def prepare (s : Scratch α) (n : Nat) : Scratch α :=
  { s with
    jacobian := Layout.fill 0 (List.replicate (n * n) 0) s.jacobian
    factors := if s.factors.1 = n then s.factors else ⟨n, Factors.ofEntries []⟩ }

/-- Takes over the residuals and the entries of the Jacobian. -/
def load (s : Scratch α) (l : Loop) (rs : Registers α) : Scratch α :=
  { s with
    residual := Layout.fill 0 (l.residuals.map rs.value) s.residual
    jacobian := l.jacobian.foldl (fun a (i, j, r) => a.setIfInBounds (i * l.size + j) (rs.value r)) s.jacobian }

/-- Factors the Jacobian of `n` unknowns; tells if it is singular. -/
def factor (s : Scratch α) (n : Nat) : Scratch α × Option Error :=
  let (f, e?) : Factors α n × Option Error := Factors.factor (s.jacobian.toList.take (n * n))
  ({ s with factors := ⟨n, f⟩ }, e?)

/-- Solves for the corrections of `n` unknowns. -/
def solve (s : Scratch α) (n : Nat) : Scratch α :=
  { s with correction := Layout.fill 0 (s.factors.2.solve (s.residual.toList.take n)) s.correction }

end Scratch

/-! ## Loops -/

namespace Loop

/-- Corrects the estimates as often as the budget allows and the tolerance demands. -/
def iterateIn (l : Loop) (tolerance : α) : (budget : Nat) → Workspace α → Workspace α
  | 0, w => w
  | budget + 1, w =>
    let rs := executeAll l.body w.registers
    match (w.scratch.load l rs).factor l.size with
    | (s, some _) => ⟨rs, s⟩
    | (s, none) =>
      let s := s.solve l.size
      let ds := s.correction.toList.take l.size
      let w := ⟨l.correct ds rs, s⟩
      if Scalar.lt (l.largest ds) tolerance then w else l.iterateIn tolerance budget w

/-- Takes the previous values as first estimates and corrects them. -/
def runIn (l : Loop) (tolerance : α) (budget : Nat) (w : Workspace α) : Workspace α :=
  l.iterateIn tolerance budget ⟨l.begin w.registers, w.scratch.prepare l.size⟩

end Loop

/-! ## Programs -/

/-- Executes a block. -/
def Block.run (tolerance : α) (budget : Nat) (b : Block) (w : Workspace α) : Workspace α :=
  match b with
  | .straight is => w.update (executeAll is)
  | .newton l => l.runIn tolerance budget w

/-- The unknowns of a block that is a loop. -/
def Block.size : Block → Nat
  | .straight _ => 0
  | .newton l => l.size

namespace Program

/-- The number of unknowns of the largest loop. -/
def loopSize (p : Program α) : Nat := p.blocks.foldl (fun n b => max n b.size) 0

/-- A workspace before the first sample. -/
def workspace (p : Program α) : Workspace α := ⟨p.registers₀, .ofSize p.loopSize⟩

/-- Advances by one sample, with at most `budget` corrections in each loop. -/
def run (p : Program α) (budget : Nat) (w : Workspace α) : Workspace α :=
  p.blocks.foldl (fun w b => b.run p.tolerance budget w) w

end Program

end AnalogCircuit
