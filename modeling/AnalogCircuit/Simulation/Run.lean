import AnalogCircuit.Simulation.Basic
/-!
# Running a simulation

A run is asked for some samples: what goes in, which unknowns are observed, which parameters change at
its start, and how many corrections an iteration may take. All that is checked before anything happens,
so a run that is refused changes nothing. Between two output samples the inputs move in a straight line.
-/

namespace AnalogCircuit.Simulation

variable {α : Type} [Scalar α]

/-! ## Samples -/

/-- One internal step towards the next output sample, the `k`-th of its steps. -/
def internalStep (s : Simulation α) (budget : Nat) (targets : List α) (w : Workspace α) (k : Nat) :
    Workspace α :=
  let l := s.program.layout
  let fraction := Scalar.ofNat (k + 1) / Scalar.ofNat s.oversample
  let inputs := s.lastInputs.zipWith (fun start target => (target - start) * fraction + start) targets
  let w := w.update (Layout.fill (l.input 0) inputs)
  let w := w.update (·.write l.previousTime (Scalar.ofNat (s.elapsed * s.oversample + k) * s.law.step))
  (s.program.run budget w).update l.advance

/-- Produces one output sample; `targets` are the values of the inputs there. -/
def frame (s : Simulation α) (budget : Nat) (targets : List α) : Simulation α :=
  { s with
    workspace := (List.range s.oversample).foldl (s.internalStep budget targets) s.workspace
    lastInputs := targets
    elapsed := s.elapsed + 1 }

/-- Produces an output sample for each frame of input values, and the values of the observed unknowns
at each. -/
def frames (budget : Nat) (observed : List Nat) : List (List α) → Simulation α →
    List (List α) × Simulation α
  | [], s => ([], s)
  | targets :: rest, s =>
    let s := s.frame budget targets
    let values := observed.map s.latest
    let (rows, s) := frames budget observed rest s
    (values :: rows, s)

/-! ## Requests -/

/-- What a run is asked for. -/
structure Request (α : Type) where
  /-- How many output samples. -/
  samples : Nat
  /-- The samples of some inputs; all others are zero. -/
  inputs : List (String × List α)
  /-- The unknowns to be observed, each with the buffer for its samples. -/
  outputs : List (String × List α)
  /-- New values of parameters. -/
  bindings : List (String × α)
  /-- The most corrections of an iteration. -/
  budget : Nat

/-- A request whose names are resolved. -/
structure Plan (α : Type) where
  sources : List (Option (Array α))
  observed : List Nat
  bindings : List (Nat × α)

/-- Refuses a buffer whose length is not the number of samples. -/
def requireLength (name : String) (found expected : Nat) : Except Error Unit :=
  if found = expected then .ok () else .error (.bufferLength name expected found)

/-- The place that a buffer's name denotes; the buffer has to be as long as the run. -/
def requireBuffer (place? : String → Option Nat) (samples : Nat) (b : String × List α) :
    Except Error Nat := do
  match place? b.1 with
  | some i =>
    requireLength b.1 b.2.length samples
    return i
  | none => throw (.unknownBuffer b.1)

/-- Resolves the names in a request. -/
def plan (s : Simulation α) (r : Request α) : Except Error (Plan α) := do
  if s.phase = .diverged then throw .alreadyDiverged
  if r.budget = 0 then throw .noIterations
  let sources ← r.inputs.foldlM (fun sources b => do
    let i ← requireBuffer s.inputPlace? r.samples b
    return sources.set i (some b.2.toArray)) (List.replicate s.law.inputs.length none)
  let observed ← r.outputs.mapM (requireBuffer s.unknown? r.samples)
  let bindings ← r.bindings.mapM fun (name, v) => return (← s.requireParameter name, v)
  return { sources, observed, bindings }

/-- The values of the inputs at each sample. -/
def Plan.inputFrames (p : Plan α) (samples : Nat) : List (List α) :=
  (List.range samples).map fun k =>
    p.sources.map fun
      | some buffer => buffer.getD k 0
      | none => 0

/-! ## Runs -/

/-- The end of a run: the simulation after it, the buffers of the observed unknowns, and the failure if
there was one. -/
structure Outcome (α : Type) where
  simulation : Simulation α
  outputs : List (List α)
  error? : Option Error

/-- The time and the name of the first observed unknown whose last sample is not finite; the time is
that of its first such sample. -/
def divergence? (s : Simulation α) (names : List String) (buffers : List (List α)) :
    Option (α × String) :=
  (names.zip buffers).findSome? fun (name, buffer) =>
    match buffer.getLast? with
    | none => none
    | some last =>
      if Scalar.isFinite last then none
      else some (s.timeOf (s.elapsed + buffer.findIdx fun v => !Scalar.isFinite v), name)

/-- Carries out a plan. -/
def execute (s : Simulation α) (r : Request α) (p : Plan α) : Outcome α :=
  let s := p.bindings.foldl (fun s (i, v) => s.bind i v) s
  let (rows, s') := frames r.budget p.observed (p.inputFrames r.samples) s
  let outputs := (List.range p.observed.length).map fun j => rows.map (·.getD j 0)
  match s.divergence? (r.outputs.map (·.1)) outputs with
  | some (time, name) =>
    { simulation := { s' with elapsed := s.elapsed, phase := .diverged }
      outputs
      error? := some (.diverged (Scalar.toText time) name) }
  | none =>
    { simulation := if r.samples = 0 then s' else { s' with phase := .running }
      outputs
      error? := none }

/-- Advances a simulation by some samples. -/
def run (s : Simulation α) (r : Request α) : Outcome α :=
  match s.plan r with
  | .error e => ⟨s, r.outputs.map (·.2), some e⟩
  | .ok p => s.execute r p

/-- Runs from one input to one observed unknown. -/
def runMono (s : Simulation α) (input : String) (samples : List α) (output : String)
    (buffer : List α) (budget : Nat) : Outcome α :=
  s.run ⟨samples.length, [(input, samples)], [(output, buffer)], [], budget⟩

/-- Runs from the input of the circuit, if it has one, to its output. -/
def process (s : Simulation α) (samples buffer : List α) : Outcome α :=
  match s.output? with
  | none => ⟨s, [buffer], some .missingOutput⟩
  | some output =>
    let inputs := match s.input? with
      | some input => [(input, samples)]
      | none => []
    s.run ⟨buffer.length, inputs, [(output, buffer)], [], s.iterations⟩

end AnalogCircuit.Simulation
