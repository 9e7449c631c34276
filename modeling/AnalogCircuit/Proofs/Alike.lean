import AnalogCircuit.Proofs.GroundedProgram
import AnalogCircuit.Proofs.Splitting
/-!
# Simulations that look alike

Two simulations that differ in nothing but temporaries, buffers and the time of the previous sample cannot be told
apart: every call has the same result in both and leaves two simulations that look alike again. For each internal
step sets the time before the program reads it, and a program reads no temporary that it has not written.
-/

namespace AnalogCircuit

variable {α : Type} [Scalar α]

/-! ## Groups of registers -/

namespace Layout

variable {l : Layout} {i : Nat}

theorem previousTime_lt_size (l : Layout) : l.previousTime < l.size := by
  change (_ : Nat) < l.previousTime + 1 + l.unknowns
  omega

theorem previousUnknown_lt (h : i < l.unknowns) : l.previousUnknown i < l.previousTime := by
  change i < l.unknowns + 2 * l.inputs + l.parameters
  omega

theorem input_lt (h : i < l.inputs) : l.input i < l.previousTime := by
  change l.unknowns + i < l.unknowns + 2 * l.inputs + l.parameters
  omega

theorem parameter_lt (h : i < l.parameters) : l.parameter i < l.previousTime := by
  change l.unknowns + 2 * l.inputs + i < l.unknowns + 2 * l.inputs + l.parameters
  omega

end Layout

section

variable {known : Reg → Prop} {rs rs' : Registers α}

theorem AgreeOn.fill (h : AgreeOn known rs rs') (first : Reg) (vs : List α) :
    AgreeOn known (Layout.fill first vs rs) (Layout.fill first vs rs') := by
  induction vs generalizing first rs rs' with
  | nil => exact h
  | cons v vs ih => exact ih ((h.write first rfl).mono fun r hr => .inl hr) (first + 1)

theorem AgreeOn.advance (h : AgreeOn known rs rs') {l : Layout} (fixed : ∀ r < l.size, known r) :
    AgreeOn known (l.advance rs) (l.advance rs') := by
  have unknowns : (List.range l.unknowns).map (fun i => rs.value (l.unknown i)) =
      (List.range l.unknowns).map fun i => rs'.value (l.unknown i) :=
    List.map_congr_left fun i hi => h.value _ (fixed _ (Program.unknown_lt_size (List.mem_range.mp hi)))
  have inputs : (List.range l.inputs).map (fun i => rs.value (l.input i)) =
      (List.range l.inputs).map fun i => rs'.value (l.input i) :=
    List.map_congr_left fun i hi => h.value _ (fixed _
      ((Layout.input_lt (List.mem_range.mp hi)).trans l.previousTime_lt_size))
  unfold Layout.advance
  rw [unknowns, inputs]
  exact (h.fill _ _).fill _ _

end

namespace Simulation

/-! ## Invariants of calls -/

/-- The program of the simulation is disciplined, and its loops are square. -/
structure Compiled (s : Simulation α) : Prop where
  layout : s.program.layout = Program.layoutOf s.law
  disciplined : s.program.Disciplined
  squared : s.program.Squared

theorem frames_invariant {P : Simulation α → Prop} {budget : Nat} (observed : List Nat)
    (frame : ∀ s targets, targets.length = s.law.inputs.length → P s → P (s.frame budget targets))
    {targets : List (List α)} {s : Simulation α}
    (lengths : ∀ t ∈ targets, t.length = s.law.inputs.length) (h : P s) :
    P (frames budget observed targets s).2 := by
  induction targets generalizing s with
  | nil => exact h
  | cons targets rest ih =>
    obtain ⟨length, lengths⟩ := List.forall_mem_cons.mp lengths
    exact ih lengths (frame s targets length h)

omit [Scalar α] in
/-- What a binding preserves is preserved by several ones. -/
theorem bindAll_invariant {P : Simulation α → Prop}
    (bind : ∀ s name i v, s.parameterPlace? name = some i → P s → P (s.bind i v)) {s : Simulation α}
    (bindings : List (String × α)) (h : P s) :
    P (s.bindAll (bindings.filterMap fun b => (s.parameterPlace? b.1).map (·, b.2))) := by
  induction bindings generalizing s with
  | nil => exact h
  | cons b bindings ih =>
    cases place : s.parameterPlace? b.1 with
    | none =>
      rw [List.filterMap_cons_none (by rw [place]; rfl)]
      exact ih h
    | some i =>
      rw [List.filterMap_cons_some (by rw [place]; rfl)]
      exact ih (bind s b.1 i b.2 place h)

/-- What bindings, frames and resets preserve is preserved by every call; where a run ends, only the number of samples
and the phase are set. -/
theorem perform_invariant {P : Simulation α → Prop}
    (bind : ∀ s name i v, s.parameterPlace? name = some i → P s → P (s.bind i v))
    (frame : ∀ s budget targets, targets.length = s.law.inputs.length → P s → P (s.frame budget targets))
    (mark : ∀ s elapsed phase, P s → P { s with elapsed, phase })
    (resetParameters : ∀ s, P s → P s.resetParameters) (reset : ∀ s, P s → P s.reset)
    {s : Simulation α} (c : Call α) (h : P s) : P (s.perform c).simulation := by
  have effect := s.effect c
  generalize s.perform c = o at effect
  cases effect with
  | refused => exact h
  | @ran _ r asked accepted =>
    have framed : P (s.frameAll r (s.planned r)).2 := by
      refine frames_invariant _ (fun s targets => frame s r.budget targets) (fun t ht => ?_)
        (bindAll_invariant bind r.bindings h)
      rw [law_bindAll]
      exact length_of_mem_inputFrames ht
    rw [execute_eq]
    cases s.failure? r (s.planned r) with
    | some d => exact mark _ _ _ framed
    | none =>
      unfold Outcome.conclude
      dsimp only
      split
      · exact framed
      · exact mark _ _ _ framed
  | bound place v => exact bind s _ _ v place h
  | defaults => exact resetParameters s h
  | reset => exact reset s h

/-- No call changes the law or the program. -/
theorem Compiled.perform {s : Simulation α} (h : s.Compiled) (c : Call α) :
    (s.perform c).simulation.Compiled ∧ (s.perform c).simulation.law = s.law ∧
      (s.perform c).simulation.program = s.program :=
  perform_invariant
    (P := fun s' => s'.Compiled ∧ s'.law = s.law ∧ s'.program = s.program)
    (fun _ _ _ _ _ h => ⟨⟨h.1.layout, h.1.disciplined, h.1.squared⟩, h.2⟩)
    (fun _ _ _ _ h => ⟨⟨h.1.layout, h.1.disciplined, h.1.squared⟩, h.2⟩)
    (fun _ _ _ h => ⟨⟨h.1.layout, h.1.disciplined, h.1.squared⟩, h.2⟩)
    (fun _ h => ⟨⟨h.1.layout, h.1.disciplined, h.1.squared⟩, h.2⟩)
    (fun _ h => ⟨⟨h.1.layout, h.1.disciplined, h.1.squared⟩, h.2⟩) c ⟨h, rfl, rfl⟩

/-! ## Internal steps -/

/-- The workspace in which an internal step begins: inputs and time are set. -/
def stepStart (s : Simulation α) (targets : List α) (k : Nat) (w : Workspace α) : Workspace α :=
  (w.update (Layout.fill (s.program.layout.input 0) (s.lastInputs.zipWith (fun start target =>
    (target - start) * (Scalar.ofNat (k + 1) / Scalar.ofNat s.oversample) + start) targets))).update
    (·.write s.program.layout.previousTime (Scalar.ofNat (s.elapsed * s.oversample + k) * s.law.step))

variable {s s' : Simulation α} {w w' : Workspace α}

/-- What an internal step does to the registers does not depend on the buffers. -/
theorem internalStep_registers (compiled : s.Compiled) (roomy : s.program.Roomy w.scratch) (budget : Nat)
    (targets : List α) (k : Nat) :
    (s.internalStep budget targets w k).registers =
        s.program.layout.advance (s.program.step budget (s.stepStart targets k w).registers) ∧
      s.program.Roomy (s.internalStep budget targets w k).scratch := by
  have started : s.program.Roomy (s.stepStart targets k w).scratch := roomy
  obtain ⟨run, roomy⟩ := Program.run_registers compiled.squared budget started
  exact ⟨congrArg s.program.layout.advance run, roomy⟩

/-! ## Similar workspaces -/

/-- The workspaces may differ in temporaries, in the time of the previous sample and in what is in the buffers. -/
structure Similar (p : Program α) (w w' : Workspace α) : Prop where
  registers : AgreeOn (fun r => p.Ground r ∧ r ≠ p.layout.previousTime) w.registers w'.registers
  roomy : p.Roomy w.scratch
  roomy' : p.Roomy w'.scratch

/-- Before the program runs, the time is set. -/
theorem Similar.stepStart (h : Similar s.program w w') (targets : List α) (k : Nat) :
    AgreeOn s.program.Ground (s.stepStart targets k w).registers (s.stepStart targets k w').registers := by
  refine ((h.registers.fill _ _).write s.program.layout.previousTime rfl).mono fun r hr => ?_
  by_cases time : r = s.program.layout.previousTime
  · exact .inr time
  · exact .inl ⟨hr, time⟩

theorem Similar.internalStep (compiled : s.Compiled) (h : Similar s.program w w') (budget : Nat)
    (targets : List α) (k : Nat) :
    Similar s.program (s.internalStep budget targets w k) (s.internalStep budget targets w' k) := by
  obtain ⟨registers, roomy⟩ := internalStep_registers compiled h.roomy budget targets k
  obtain ⟨registers', roomy'⟩ := internalStep_registers compiled h.roomy' budget targets k
  refine ⟨?_, roomy, roomy'⟩
  rw [registers, registers']
  have stepped := compiled.disciplined.agree_step budget (h.stepStart targets k)
  exact (stepped.advance fun r hr => .inl hr).mono fun r hr => hr.1

theorem Similar.foldl_internalStep (compiled : s.Compiled) (h : Similar s.program w w') (budget : Nat)
    (targets : List α) (ks : List Nat) :
    Similar s.program (ks.foldl (s.internalStep budget targets) w)
      (ks.foldl (s.internalStep budget targets) w') := by
  induction ks generalizing w w' with
  | nil => exact h
  | cons k ks ih => exact ih (h.internalStep compiled budget targets k)

theorem Similar.update {p : Program α} (h : Similar p w w') {f : Registers α → Registers α}
    (same : ∀ known rs rs', AgreeOn known rs rs' → AgreeOn known (f rs) (f rs')) :
    Similar p (w.update f) (w'.update f) :=
  ⟨same _ _ _ h.registers, h.roomy, h.roomy'⟩

/-! ## Alike -/

/-- The simulations differ only in their workspaces, which are similar. -/
def Alike (s s' : Simulation α) : Prop :=
  ∃ workspace, s' = { s with workspace } ∧ Similar s.program s.workspace workspace

namespace Alike

theorem bind (h : Alike s s') (i : Nat) (v : α) : Alike (s.bind i v) (s'.bind i v) := by
  obtain ⟨w, rfl, similar⟩ := h
  exact ⟨_, rfl, similar.update fun _ _ _ agree => (agree.write _ rfl).mono fun _ hr => .inl hr⟩

theorem bindAll (h : Alike s s') (bindings : List (Nat × α)) :
    Alike (s.bindAll bindings) (s'.bindAll bindings) := by
  induction bindings generalizing s s' with
  | nil => exact h
  | cons b bindings ih => exact ih (h.bind b.1 b.2)

theorem resetParameters (h : Alike s s') : Alike s.resetParameters s'.resetParameters := by
  obtain ⟨w, rfl, similar⟩ := h
  exact ⟨_, rfl, similar.update fun _ _ _ agree => agree.fill _ _⟩

theorem reset (h : Alike s s') : Alike s.reset s'.reset := by
  obtain ⟨w, rfl, similar⟩ := h
  exact ⟨_, rfl, similar.update fun _ _ _ agree => (agree.fill _ _).fill _ _⟩

theorem frame (h : Alike s s') (compiled : s.Compiled) (budget : Nat) (targets : List α) :
    Alike (s.frame budget targets) (s'.frame budget targets) := by
  obtain ⟨w, rfl, similar⟩ := h
  exact ⟨_, rfl, similar.foldl_internalStep compiled budget targets _⟩

/-- A fixed register below the time has the same value. -/
theorem value_eq (h : Alike s s') {r : Reg} (below : r < s.program.layout.previousTime) :
    s.workspace.registers.value r = s'.workspace.registers.value r := by
  obtain ⟨w, rfl, similar⟩ := h
  exact similar.registers.value r
    ⟨.inl (below.trans s.program.layout.previousTime_lt_size), Nat.ne_of_lt below⟩

theorem latest (h : Alike s s') (compiled : s.Compiled) {i : Nat} (hi : i < s.law.unknowns.length) :
    s.latest i = s'.latest i := by
  obtain ⟨w, rfl, similar⟩ := id h
  refine h.value_eq (Layout.previousUnknown_lt ?_)
  rw [compiled.layout]
  exact hi

/-- Frames show the same rows. -/
theorem frames (h : Alike s s') (compiled : s.Compiled) (budget : Nat) {observed : List Nat}
    (known : ∀ i ∈ observed, i < s.law.unknowns.length) (targets : List (List α)) :
    (Simulation.frames budget observed targets s).1 = (Simulation.frames budget observed targets s').1 ∧
      Alike (Simulation.frames budget observed targets s).2
        (Simulation.frames budget observed targets s').2 := by
  induction targets generalizing s s' with
  | nil => exact ⟨rfl, h⟩
  | cons targets rest ih =>
    have next := h.frame compiled budget targets
    have compiled' : (s.frame budget targets).Compiled :=
      ⟨compiled.layout, compiled.disciplined, compiled.squared⟩
    obtain ⟨rows, alike⟩ := ih next compiled' known
    refine ⟨?_, alike⟩
    have values : observed.map (s.frame budget targets).latest = observed.map (s'.frame budget targets).latest :=
      List.map_congr_left fun i hi => next.latest compiled' (known i hi)
    simp only [Simulation.frames, values, rows]

theorem mark (h : Alike s s') (elapsed : Nat) (phase : Phase) :
    Alike { s with elapsed, phase } { s' with elapsed, phase } := by
  obtain ⟨w, rfl, similar⟩ := h
  exact ⟨w, rfl, similar⟩

end Alike

/-! ## Calls -/

/-- Two calls have the same results and leave simulations that look alike. -/
structure Outcome.Alike (o o' : Outcome α) : Prop where
  simulation : o.simulation.Alike o'.simulation
  outputs : o.outputs = o'.outputs
  error? : o.error? = o'.error?

omit [Scalar α] in
theorem lt_of_placeOf? {symbols : List Symbol} {name : String} {i : Nat}
    (h : placeOf? symbols name = some i) : i < symbols.length :=
  (List.findIdx?_eq_some_iff_getElem.mp h).1

omit [Scalar α] in
theorem Compiled.bindAll (h : s.Compiled) (bindings : List (Nat × α)) : (s.bindAll bindings).Compiled := by
  obtain ⟨parameters, workspace, same⟩ := s.exists_of_bindAll bindings
  rw [same]
  exact ⟨h.layout, h.disciplined, h.squared⟩

theorem Alike.execute (h : Alike s s') (compiled : s.Compiled) (r : Request α) {p : Plan α}
    (known : ∀ i ∈ p.observed, i < s.law.unknowns.length) :
    (s.execute r p).Alike (s'.execute r p) := by
  have bound := h.bindAll p.bindings
  obtain ⟨rows, after⟩ := bound.frames (compiled.bindAll p.bindings) r.budget
    (s.law_bindAll p.bindings ▸ known)
    (p.inputFrames r.samples)
  have failure : s.failure? r p = s'.failure? r p := by
    unfold failure? frameAll
    rw [rows]
    obtain ⟨w, same, -⟩ := bound
    rw [same]
    rfl
  have elapsed : (s.bindAll p.bindings).elapsed = (s'.bindAll p.bindings).elapsed := by
    obtain ⟨w, same, -⟩ := bound
    rw [same]
  rw [execute_eq, execute_eq, ← failure]
  unfold frameAll
  rw [← rows]
  cases s.failure? r p with
  | some d =>
    unfold Outcome.conclude
    rw [elapsed]
    exact ⟨after.mark _ _, rfl, rfl⟩
  | none =>
    unfold Outcome.conclude
    dsimp only
    split
    · exact ⟨after, rfl, rfl⟩
    · refine ⟨?_, rfl, rfl⟩
      obtain ⟨w, same, similar⟩ := after
      rw [same]
      exact ⟨w, rfl, similar⟩

theorem Alike.run (h : Alike s s') (compiled : s.Compiled) (r : Request α) :
    (s.run r).Alike (s'.run r) := by
  have same : s'.plan r = s.plan r := by
    obtain ⟨w, rfl, -⟩ := h
    rfl
  unfold Simulation.run
  rw [same]
  rcases s.plan_cases r with ⟨-, planned⟩ | ⟨-, e, refused, -⟩
  · rw [planned]
    refine h.execute compiled r fun i hi => ?_
    obtain ⟨b, -, place⟩ := List.mem_filterMap.mp hi
    exact lt_of_placeOf? place
  · rw [refused]
    exact ⟨h, rfl, rfl⟩

/-- Every call has the same result in simulations that look alike. -/
theorem Alike.perform (h : Alike s s') (compiled : s.Compiled) (c : Call α) :
    (s.perform c).Alike (s'.perform c) := by
  cases c with
  | run r => exact h.run compiled r
  | runMono input samples output buffer budget => exact h.run compiled _
  | process samples buffer =>
    change (s.process samples buffer).Alike (s'.process samples buffer)
    have fields : s'.output? = s.output? ∧ s'.input? = s.input? ∧ s'.iterations = s.iterations := by
      obtain ⟨w, rfl, -⟩ := h
      exact ⟨rfl, rfl, rfl⟩
    obtain ⟨output, input, iterations⟩ := fields
    unfold process
    rw [output, input, iterations]
    split
    · exact ⟨h, rfl, rfl⟩
    · exact h.run compiled _
  | setParameter name v =>
    have place : s'.requireParameter name = s.requireParameter name := by
      obtain ⟨w, rfl, -⟩ := h
      rfl
    unfold Simulation.perform setParameter
    dsimp only
    rw [place]
    cases s.requireParameter name with
    | ok i => exact ⟨h.bind i v, rfl, rfl⟩
    | error e => exact ⟨h, rfl, rfl⟩
  | resetParameters => exact ⟨h.resetParameters, rfl, rfl⟩
  | reset => exact ⟨h.reset, rfl, rfl⟩

/-! ## Observation -/

/-- What can be seen of a simulation between two calls. -/
structure View (α : Type) where
  value? : String → Option α
  elapsed : Nat
  time : α
  phase : Phase
  parameter? : String → Option α

/-- What can be seen of a simulation. -/
def view (s : Simulation α) : View α := ⟨s.value?, s.elapsed, s.time, s.phase, s.parameter?⟩

/-- What can be seen of calls one after the other: buffers and failure of each, and the simulation behind it. -/
def observe (s : Simulation α) : List (Call α) → List (List (List α) × Option Error × View α)
  | [] => []
  | c :: cs =>
    let o := s.perform c
    (o.outputs, o.error?, o.simulation.view) :: o.simulation.observe cs

theorem Alike.view_eq (h : Alike s s') (compiled : s.Compiled) : s.view = s'.view := by
  have value : s.value? = s'.value? := by
    funext name
    have unknown : s'.unknown? name = s.unknown? name ∧ s'.inputPlace? name = s.inputPlace? name ∧
        s'.program = s.program := by
      obtain ⟨w, rfl, -⟩ := h
      exact ⟨rfl, rfl, rfl⟩
    obtain ⟨unknown, input, program⟩ := unknown
    unfold value?
    rw [unknown, input, program]
    cases place : s.unknown? name with
    | some i => exact congrArg some (h.latest compiled (lt_of_placeOf? place))
    | none =>
      cases place' : s.inputPlace? name with
      | none => rfl
      | some i =>
        refine congrArg some (h.value_eq (Layout.input_lt ?_))
        rw [compiled.layout]
        exact lt_of_placeOf? place'
  unfold view
  rw [value]
  obtain ⟨w, rfl, -⟩ := h
  rfl

/-- Simulations that look alike cannot be told apart by any calls. -/
theorem Alike.observe_eq (h : Alike s s') (compiled : s.Compiled) (cs : List (Call α)) :
    s.observe cs = s'.observe cs := by
  induction cs generalizing s s' with
  | nil => rfl
  | cons c cs ih =>
    obtain ⟨alike, outputs, error⟩ := h.perform compiled c
    have compiled' := (compiled.perform c).1
    unfold observe
    dsimp only
    rw [outputs, error, alike.view_eq compiled', ih alike compiled']

end Simulation

end AnalogCircuit
