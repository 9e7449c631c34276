import AnalogCircuit.Proofs.Exact
import AnalogCircuit.Simulation.Run
/-!
# Calls

What a caller can ask of a simulation, and when it is refused. A request is carried out if every name in it is
known and every buffer is as long as the run; then its plan is a plain function of the request. Otherwise nothing
happens: of the bindings either all are applied or none is.
-/

namespace AnalogCircuit

variable {α : Type} [Scalar α]

/-- A call was made that cannot be carried out. -/
def Error.isRefusal : Error → Bool
  | alreadyDiverged | noIterations | unknownBuffer _ | bufferLength _ _ _ | unknownParameter _
  | missingOutput => true
  | _ => false

namespace Simulation

/-! ## Calls -/

/-- A call of an operation that may change a simulation. -/
inductive Call (α : Type) where
  | run (request : Request α)
  | runMono (input : String) (samples : List α) (output : String) (buffer : List α) (budget : Nat)
  | process (samples buffer : List α)
  | setParameter (name : String) (value : α)
  | resetParameters
  | reset

/-- The buffers that a call may write. -/
def Call.buffers : Call α → List (List α)
  | .run r => r.outputs.map (·.2)
  | .runMono _ _ _ buffer _ | .process _ buffer => [buffer]
  | .setParameter _ _ | .resetParameters | .reset => []

/-- Makes a call. -/
def perform (s : Simulation α) : Call α → Outcome α
  | .run r => s.run r
  | .runMono input samples output buffer budget => s.runMono input samples output buffer budget
  | .process samples buffer => s.process samples buffer
  | .setParameter name v =>
    match s.setParameter name v with
    | .ok s => ⟨s, [], none⟩
    | .error e => ⟨s, [], some e⟩
  | .resetParameters => ⟨s.resetParameters, [], none⟩
  | .reset => ⟨s.reset, [], none⟩

/-- Sets parameters one after the other. -/
def setParameters (s : Simulation α) (bindings : List (String × α)) : Except Error (Simulation α) :=
  bindings.foldlM (fun s b => s.setParameter b.1 b.2) s

/-! ## Checks

Each check of a request goes through a list and stops at the first element that is not acceptable.
-/

omit [Scalar α] in
theorem foldlM_cases {β γ : Type} {f : γ → β → Except Error γ} {g : γ → β → γ} {good : β → Prop}
    (step : ∀ c b, (good b ∧ f c b = .ok (g c b)) ∨ (¬good b ∧ ∃ e, f c b = .error e ∧ e.isRefusal = true))
    (bs : List β) (c : γ) :
    ((∀ b ∈ bs, good b) ∧ bs.foldlM f c = .ok (bs.foldl g c)) ∨
      (¬(∀ b ∈ bs, good b) ∧ ∃ e, bs.foldlM f c = .error e ∧ e.isRefusal = true) := by
  induction bs generalizing c with
  | nil => exact .inl ⟨fun _ h => absurd h List.not_mem_nil, rfl⟩
  | cons b bs ih =>
    simp only [List.forall_mem_cons, List.foldlM_cons, List.foldl_cons]
    rcases step c b with ⟨hb, h⟩ | ⟨hb, e, h, he⟩
    · rcases ih (g c b) with ⟨hbs, h'⟩ | ⟨hbs, e, h', he⟩
      · exact .inl ⟨⟨hb, hbs⟩, by rw [h]; exact h'⟩
      · exact .inr ⟨fun all => hbs all.2, e, by rw [h]; exact h', he⟩
    · exact .inr ⟨fun all => hb all.1, e, by rw [h]; rfl, he⟩

omit [Scalar α] in
theorem mapM_cases {β γ : Type} {f : β → Except Error γ} {g : β → Option γ} {good : β → Prop}
    (step : ∀ b, (good b ∧ ∃ c, g b = some c ∧ f b = .ok c) ∨
      (¬good b ∧ ∃ e, f b = .error e ∧ e.isRefusal = true)) (bs : List β) :
    ((∀ b ∈ bs, good b) ∧ bs.mapM f = .ok (bs.filterMap g)) ∨
      (¬(∀ b ∈ bs, good b) ∧ ∃ e, bs.mapM f = .error e ∧ e.isRefusal = true) := by
  induction bs with
  | nil => exact .inl ⟨fun _ h => absurd h List.not_mem_nil, rfl⟩
  | cons b bs ih =>
    simp only [List.forall_mem_cons, List.mapM_cons]
    rcases step b with ⟨hb, c, hg, h⟩ | ⟨hb, e, h, he⟩
    · rw [List.filterMap_cons_some hg]
      rcases ih with ⟨hbs, h'⟩ | ⟨hbs, e, h', he⟩
      · exact .inl ⟨⟨hb, hbs⟩, by rw [h, h']; rfl⟩
      · exact .inr ⟨fun all => hbs all.2, e, by rw [h, h']; rfl, he⟩
    · exact .inr ⟨fun all => hb all.1, e, by rw [h]; rfl, he⟩

/-! ## Plans -/

/-- The buffers of the inputs; of two for the same input the later one counts. -/
def sources (s : Simulation α) (inputs : List (String × List α)) : List (Option (Array α)) :=
  inputs.foldl (fun sources b => (s.inputPlace? b.1).elim sources fun i => sources.set i (some b.2.toArray))
    (List.replicate s.law.inputs.length none)

/-- What a request has to satisfy in order to be carried out. -/
structure Accepts (s : Simulation α) (r : Request α) : Prop where
  alive : s.phase ≠ .diverged
  budget : r.budget ≠ 0
  inputs : ∀ b ∈ r.inputs, (s.inputPlace? b.1).isSome = true ∧ b.2.length = r.samples
  outputs : ∀ b ∈ r.outputs, (s.unknown? b.1).isSome = true ∧ b.2.length = r.samples
  bindings : ∀ b ∈ r.bindings, (s.parameterPlace? b.1).isSome = true

/-- What is to be done for an accepted request. -/
def planned (s : Simulation α) (r : Request α) : Plan α where
  sources := s.sources r.inputs
  observed := r.outputs.filterMap fun b => s.unknown? b.1
  bindings := r.bindings.filterMap fun b => (s.parameterPlace? b.1).map (·, b.2)

variable {s : Simulation α} {r : Request α}

theorem requireLength_cases (name : String) (found expected : Nat) :
    (found = expected ∧ requireLength name found expected = .ok ()) ∨
    (found ≠ expected ∧ requireLength name found expected = .error (.bufferLength name expected found)) := by
  unfold requireLength
  by_cases h : found = expected <;> simp [h]

omit [Scalar α] in
theorem requireBuffer_cases (place? : String → Option Nat) (samples : Nat) (b : String × List α) :
    (∃ i, place? b.1 = some i ∧ b.2.length = samples ∧ requireBuffer place? samples b = .ok i) ∨
    (¬((place? b.1).isSome = true ∧ b.2.length = samples) ∧
      ∃ e, requireBuffer place? samples b = .error e ∧ e.isRefusal = true) := by
  unfold requireBuffer
  cases place? b.1 with
  | none => exact .inr ⟨by simp, _, rfl, rfl⟩
  | some i =>
    rcases requireLength_cases b.1 b.2.length samples with ⟨same, h⟩ | ⟨other, h⟩
    · exact .inl ⟨i, rfl, same, by simp only [h]; rfl⟩
    · exact .inr ⟨fun hs => other hs.2, _, by simp only [h]; rfl, rfl⟩

omit [Scalar α] in
theorem requireParameter_cases (s : Simulation α) (name : String) :
    (∃ i, s.parameterPlace? name = some i ∧ s.requireParameter name = .ok i) ∨
    (s.parameterPlace? name = none ∧ s.requireParameter name = .error (.unknownParameter name)) := by
  unfold requireParameter
  cases s.parameterPlace? name with
  | none => exact .inr ⟨rfl, rfl⟩
  | some i => exact .inl ⟨i, rfl, rfl⟩

omit [Scalar α] in
theorem inputs_cases (s : Simulation α) (samples : Nat) (inputs : List (String × List α))
    (sources : List (Option (Array α))) :
    ((∀ b ∈ inputs, (s.inputPlace? b.1).isSome = true ∧ b.2.length = samples) ∧
      inputs.foldlM (fun sources b => do
        let i ← requireBuffer s.inputPlace? samples b
        return sources.set i (some b.2.toArray)) sources =
      .ok (inputs.foldl (fun sources b =>
        (s.inputPlace? b.1).elim sources fun i => sources.set i (some b.2.toArray)) sources)) ∨
    (¬(∀ b ∈ inputs, (s.inputPlace? b.1).isSome = true ∧ b.2.length = samples) ∧
      ∃ e, inputs.foldlM (fun sources b => do
        let i ← requireBuffer s.inputPlace? samples b
        return sources.set i (some b.2.toArray)) sources = .error e ∧ e.isRefusal = true) := by
  refine foldlM_cases (fun sources b => ?_) inputs sources
  rcases requireBuffer_cases s.inputPlace? samples b with ⟨i, place, size, h⟩ | ⟨bad, e, h, he⟩
  · exact .inl ⟨⟨by rw [place]; rfl, size⟩, by rw [h, place]; rfl⟩
  · exact .inr ⟨bad, e, by rw [h]; rfl, he⟩

omit [Scalar α] in
theorem outputs_cases (s : Simulation α) (samples : Nat) (outputs : List (String × List α)) :
    ((∀ b ∈ outputs, (s.unknown? b.1).isSome = true ∧ b.2.length = samples) ∧
      outputs.mapM (requireBuffer s.unknown? samples) = .ok (outputs.filterMap (s.unknown? ·.1))) ∨
    (¬(∀ b ∈ outputs, (s.unknown? b.1).isSome = true ∧ b.2.length = samples) ∧
      ∃ e, outputs.mapM (requireBuffer s.unknown? samples) = .error e ∧ e.isRefusal = true) := by
  refine mapM_cases (fun b => ?_) outputs
  rcases requireBuffer_cases s.unknown? samples b with ⟨i, place, size, h⟩ | refused
  · exact .inl ⟨⟨by rw [place]; rfl, size⟩, i, place, h⟩
  · exact .inr refused

omit [Scalar α] in
theorem bindings_cases (s : Simulation α) (bindings : List (String × α)) :
    ((∀ b ∈ bindings, (s.parameterPlace? b.1).isSome = true) ∧
      bindings.mapM (fun b => return (← s.requireParameter b.1, b.2)) =
        (.ok (bindings.filterMap fun b => (s.parameterPlace? b.1).map (·, b.2)) : Except Error _)) ∨
    (¬(∀ b ∈ bindings, (s.parameterPlace? b.1).isSome = true) ∧
      ∃ e, bindings.mapM (fun b => return (← s.requireParameter b.1, b.2)) =
        (.error e : Except Error (List (Nat × α))) ∧ e.isRefusal = true) := by
  refine mapM_cases (fun b => ?_) bindings
  rcases requireParameter_cases s b.1 with ⟨i, place, h⟩ | ⟨unknown, h⟩
  · exact .inl ⟨by rw [place]; rfl, (i, b.2), by rw [place]; rfl, by rw [h]; rfl⟩
  · exact .inr ⟨by rw [unknown]; exact Bool.false_ne_true, .unknownParameter b.1, by rw [h]; rfl, rfl⟩

omit [Scalar α] in
/-- A request is carried out as planned or refused. -/
theorem plan_cases (s : Simulation α) (r : Request α) :
    (s.Accepts r ∧ s.plan r = .ok (s.planned r)) ∨
      (¬s.Accepts r ∧ ∃ e, s.plan r = .error e ∧ e.isRefusal = true) := by
  unfold plan
  by_cases alive : s.phase = .diverged
  · exact .inr ⟨fun h => h.alive alive, .alreadyDiverged, by simp only [if_pos alive]; rfl, rfl⟩
  by_cases budget : r.budget = 0
  · exact .inr ⟨fun h => h.budget budget, .noIterations, by simp only [if_neg alive, if_pos budget]; rfl, rfl⟩
  simp only [if_neg alive, if_neg budget]
  rcases s.inputs_cases r.samples r.inputs (List.replicate s.law.inputs.length none) with
    ⟨inputs, h⟩ | ⟨inputs, e, h, he⟩
  · rcases s.outputs_cases r.samples r.outputs with ⟨outputs, h'⟩ | ⟨outputs, e, h', he⟩
    · rcases s.bindings_cases r.bindings with ⟨bindings, h''⟩ | ⟨bindings, e, h'', he⟩
      · exact .inl ⟨⟨alive, budget, inputs, outputs, bindings⟩, by rw [h, h', h'']; rfl⟩
      · exact .inr ⟨fun a => bindings a.bindings, e, by rw [h, h', h'']; rfl, he⟩
    · exact .inr ⟨fun a => outputs a.outputs, e, by rw [h, h']; rfl, he⟩
  · exact .inr ⟨fun a => inputs a.inputs, e, by rw [h]; rfl, he⟩

/-- What a run does, once its request is accepted. -/
theorem run_cases (s : Simulation α) (r : Request α) :
    (s.Accepts r ∧ s.run r = s.execute r (s.planned r)) ∨
      (¬s.Accepts r ∧ ∃ e, s.run r = ⟨s, r.outputs.map (·.2), some e⟩ ∧ e.isRefusal = true) := by
  unfold run
  rcases s.plan_cases r with ⟨accepted, h⟩ | ⟨refused, e, h, he⟩
  · exact .inl ⟨accepted, by rw [h]⟩
  · exact .inr ⟨refused, e, by rw [h], he⟩

/-! ## Execution -/

/-- Gives parameters their new values. -/
def bindAll (s : Simulation α) (bindings : List (Nat × α)) : Simulation α :=
  bindings.foldl (fun s b => s.bind b.1 b.2) s

/-- The buffers of the observed unknowns, of which there are `n`, after their values at each sample. -/
def columns (n : Nat) (rows : List (List α)) : List (List α) :=
  (List.range n).map fun j => rows.map (·.getD j 0)

/-- A simulation that has diverged or not, after the samples of a run that began at `start`. -/
def Outcome.conclude (start after : Simulation α) (samples : Nat) (outputs : List (List α)) :
    Option (α × String) → Outcome α
  | none => ⟨if samples = 0 then after else { after with phase := .running }, outputs, none⟩
  | some d =>
    ⟨{ after with elapsed := start.elapsed, phase := .diverged }, outputs,
      some (.diverged (Scalar.toText d.1) d.2)⟩

/-- The rows of a plan and the simulation after its last frame. -/
def frameAll (s : Simulation α) (r : Request α) (p : Plan α) : List (List α) × Simulation α :=
  frames r.budget p.observed (p.inputFrames r.samples) (s.bindAll p.bindings)

/-- The first observed unknown whose last sample is not finite after a plan. -/
def failure? (s : Simulation α) (r : Request α) (p : Plan α) : Option (α × String) :=
  (s.bindAll p.bindings).divergence? (r.outputs.map (·.1))
    (columns p.observed.length (s.frameAll r p).1)

/-- A plan is carried out in three parts: bindings, frames and the search for a sample that is not finite. -/
theorem execute_eq (s : Simulation α) (r : Request α) (p : Plan α) :
    s.execute r p =
      Outcome.conclude (s.bindAll p.bindings) (s.frameAll r p).2 r.samples
        (columns p.observed.length (s.frameAll r p).1) (s.failure? r p) := by
  unfold execute
  simp only
  split
  · next d time name found =>
    have failed : s.failure? r p = some (time, name) := found
    rw [failed]
    rfl
  · next d found =>
    have done : s.failure? r p = none := found
    rw [done]
    rfl

/-- The only failure of a run that is carried out is divergence. -/
theorem error_execute {p : Plan α} {e : Error} (h : (s.execute r p).error? = some e) :
    ∃ time name, e = .diverged time name := by
  rw [execute_eq] at h
  cases found : s.failure? r p with
  | none => rw [found] at h; cases h
  | some d => rw [found] at h; exact ⟨_, _, (Option.some.inj h).symm⟩

/-! ## What a call does -/

/-- The request of processing some samples into a buffer. -/
def processing (s : Simulation α) (output : String) (samples buffer : List α) : Request α :=
  ⟨buffer.length, s.input?.toList.map (·, samples), [(output, buffer)], [], s.iterations⟩

theorem process_eq_run {output : String} (known : s.output? = some output) (samples buffer : List α) :
    s.process samples buffer = s.run (s.processing output samples buffer) := by
  unfold process processing
  rw [known]
  cases s.input? <;> rfl

theorem process_of_none (missing : s.output? = none) (samples buffer : List α) :
    s.process samples buffer = ⟨s, [buffer], some .missingOutput⟩ := by
  unfold process
  rw [missing]

/-- The request that a call makes, if it asks for samples. -/
def request? (s : Simulation α) : Call α → Option (Request α)
  | .run r => some r
  | .runMono input samples output buffer budget =>
    some ⟨samples.length, [(input, samples)], [(output, buffer)], [], budget⟩
  | .process samples buffer => s.output?.map (s.processing · samples buffer)
  | .setParameter _ _ | .resetParameters | .reset => none

/-- A call is refused, or it is one of a run that is accepted, a binding and the two resets. -/
inductive Effect (s : Simulation α) : Call α → Outcome α → Prop where
  | refused {c : Call α} {e : Error} (refusal : e.isRefusal = true) (reset : c ≠ .reset)
    (defaults : c ≠ .resetParameters) : Effect s c ⟨s, c.buffers, some e⟩
  | ran {c : Call α} {r : Request α} (asked : s.request? c = some r) (accepted : s.Accepts r) :
    Effect s c (s.execute r (s.planned r))
  | bound {name : String} {i : Nat} (place : s.parameterPlace? name = some i) (v : α) :
    Effect s (.setParameter name v) ⟨s.bind i v, [], none⟩
  | defaults : Effect s .resetParameters ⟨s.resetParameters, [], none⟩
  | reset : Effect s .reset ⟨s.reset, [], none⟩

theorem effect (s : Simulation α) (c : Call α) : Effect s c (s.perform c) := by
  have ran {c : Call α} {r : Request α} (asked : s.request? c = some r) (buffers : r.outputs.map (·.2) = c.buffers) :
      Effect s c (s.run r) := by
    rcases s.run_cases r with ⟨accepted, run⟩ | ⟨-, e, run, refusal⟩
    · rw [run]
      exact .ran asked accepted
    · rw [run, buffers]
      exact .refused refusal (by rintro rfl; cases asked) (by rintro rfl; cases asked)
  cases c with
  | run r => exact ran rfl rfl
  | runMono input samples output buffer budget => exact ran rfl rfl
  | process samples buffer =>
    change Effect s _ (s.process samples buffer)
    cases known : s.output? with
    | none =>
      rw [process_of_none known]
      exact .refused rfl nofun nofun
    | some output =>
      rw [process_eq_run known]
      exact ran (congrArg (Option.map _) known) rfl
  | setParameter name v =>
    rcases s.requireParameter_cases name with ⟨i, place, found⟩ | ⟨-, unknown⟩
    · simp only [perform, setParameter, found]
      exact .bound place v
    · simp only [perform, setParameter, unknown]
      exact .refused rfl nofun nofun
  | resetParameters => exact .defaults
  | reset => exact .reset

/-! ## Refusal -/

omit [Scalar α] in
/-- Parameters of known names are set as a plan binds them. -/
theorem setParameters_eq (s : Simulation α) {bindings : List (String × α)}
    (known : ∀ b ∈ bindings, (s.parameterPlace? b.1).isSome = true) :
    s.setParameters bindings =
      .ok (s.bindAll (bindings.filterMap fun b => (s.parameterPlace? b.1).map (·, b.2))) := by
  induction bindings generalizing s with
  | nil => rfl
  | cons b bindings ih =>
    obtain ⟨hb, hbs⟩ := List.forall_mem_cons.mp known
    obtain ⟨i, place⟩ := Option.isSome_iff_exists.mp hb
    have set : s.setParameter b.1 b.2 = .ok (s.bind i b.2) := by
      unfold setParameter requireParameter
      rw [place]
      rfl
    unfold setParameters
    rw [List.foldlM_cons, set, List.filterMap_cons_some (by rw [place]; rfl)]
    exact ih (s.bind i b.2) hbs

/-- A call is refused: nothing has changed, neither the simulation nor a buffer. -/
def Refuses (s : Simulation α) (c : Call α) : Prop :=
  ∃ e, e.isRefusal = true ∧ s.perform c = ⟨s, c.buffers, some e⟩

omit [Scalar α] in
/-- Only values of parameters are bound. -/
theorem exists_of_bindAll (s : Simulation α) (bindings : List (Nat × α)) :
    ∃ parameters workspace, s.bindAll bindings = { s with parameters, workspace } := by
  induction bindings generalizing s with
  | nil => exact ⟨_, _, rfl⟩
  | cons b bindings ih =>
    obtain ⟨parameters, workspace, h⟩ := ih (s.bind b.1 b.2)
    exact ⟨parameters, workspace, h⟩

omit [Scalar α] in
theorem law_bindAll (s : Simulation α) (bindings : List (Nat × α)) : (s.bindAll bindings).law = s.law := by
  obtain ⟨parameters, workspace, same⟩ := s.exists_of_bindAll bindings
  rw [same]

/-- A run is refused, or else all its bindings are applied in front of it. -/
theorem run_bindings (s : Simulation α) (r : Request α) :
    s.Refuses (.run r) ∨
      ∃ s', s.setParameters r.bindings = .ok s' ∧ s.run r = s'.run { r with bindings := [] } ∧
        ∀ e, (s.run r).error? = some e → ∃ time name, e = .diverged time name := by
  rcases s.run_cases r with ⟨accepted, h⟩ | ⟨-, e, h, he⟩
  · refine .inr ⟨_, s.setParameters_eq accepted.bindings, ?_, fun e he => error_execute (h ▸ he)⟩
    have bound : (s.planned r).bindings =
      r.bindings.filterMap fun b => (s.parameterPlace? b.1).map (·, b.2) := rfl
    rw [← bound, h]
    obtain ⟨parameters, workspace, same⟩ := s.exists_of_bindAll (s.planned r).bindings
    have accepts : (s.bindAll (s.planned r).bindings).Accepts { r with bindings := [] } := by
      rw [same]
      exact ⟨accepted.alive, accepted.budget, accepted.inputs, accepted.outputs,
        fun _ h => absurd h List.not_mem_nil⟩
    rcases run_cases (s.bindAll (s.planned r).bindings) { r with bindings := [] } with
      ⟨-, h'⟩ | ⟨refused, -⟩
    · rw [h']
      have planned : (s.bindAll (s.planned r).bindings).planned { r with bindings := [] } =
          { s.planned r with bindings := [] } := by
        rw [same]
        rfl
      rw [planned]
      rfl
    · exact absurd accepts refused
  · exact .inl ⟨e, he, h⟩

/-- The failure of a call is divergence, or the call is refused. -/
theorem perform_error {s : Simulation α} {c : Call α} {e : Error} (h : (s.perform c).error? = some e) :
    (∃ time name, e = .diverged time name) ∨
      e.isRefusal = true ∧ s.perform c = ⟨s, c.buffers, some e⟩ := by
  have effect := s.effect c
  generalize s.perform c = o at effect h
  cases effect with
  | refused refusal =>
    obtain rfl := Option.some.inj h
    exact .inr ⟨refusal, rfl⟩
  | ran asked accepted => exact .inl (error_execute h)
  | bound | defaults | reset => cases h

/-- A call that fails otherwise than by divergence leaves the simulation and all buffers as they are; of the
bindings of a run either all are applied or none is. -/
theorem perform_atomic (s : Simulation α) :
    (∀ c e, (s.perform c).error? = some e → (∀ time name, e ≠ .diverged time name) →
      s.perform c = ⟨s, c.buffers, some e⟩) ∧
    ∀ r, s.Refuses (.run r) ∨
      ∃ s', s.setParameters r.bindings = .ok s' ∧ s.run r = s'.run { r with bindings := [] } ∧
        ∀ e, (s.run r).error? = some e → ∃ time name, e = .diverged time name := by
  refine ⟨fun c e h finite => ?_, s.run_bindings⟩
  rcases perform_error h with ⟨time, name, rfl⟩ | ⟨-, refused⟩
  · exact absurd rfl (finite time name)
  · exact refused

/-- An output that is a multiple of the input. -/
def amplifier : UpdateLaw ℚ where
  sampleRate := 1
  unknowns := [.named "out"]
  inputs := [.named "in"]
  parameters := [⟨.named "gain", 2⟩]
  newton? := none
  assignments := [⟨.named "out", .named "gain" * .named "in"⟩]

/-- The first binding is not applied, as the second one names no parameter. -/
theorem perform_atomic_amplifier :
    ∃ s, ofLaw amplifier ⟨1, 1, 1, 1⟩ = .ok s ∧
      s.perform (.run ⟨1, [("in", [4])], [("out", [0])], [("gain", 3), ("pain", 5)], 1⟩) =
        ⟨s, [[0]], some (.unknownParameter "pain")⟩ := by
  have refused : ((ofLaw amplifier ⟨1, 1, 1, 1⟩).toOption.map fun s => (s.perform
      (.run ⟨1, [("in", [4])], [("out", [0])], [("gain", 3), ("pain", 5)], 1⟩)).error?) =
        some (some (.unknownParameter "pain")) := by decide +kernel
  cases built : ofLaw amplifier ⟨1, 1, 1, 1⟩ with
  | error e => rw [built] at refused; cases refused
  | ok s =>
    rw [built] at refused
    have error := Option.some.inj refused
    exact ⟨s, rfl, s.perform_atomic.1 _ _ error fun _ _ h => by cases h⟩

end Simulation

end AnalogCircuit
