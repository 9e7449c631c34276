import AnalogCircuit.Proofs.Requests
/-!
# Splitting a run

A run is a run over its first samples followed by a run over the others. What the frames of the second part start
from is the whole simulation: workspace, last inputs and the number of samples so far, which gives every step its
time. The phase is the only thing that frames neither read nor write.
-/

namespace AnalogCircuit.Simulation

variable {α : Type} [Scalar α]

/-! ## Frames -/

/-- Frames one after the other. -/
theorem frames_append (budget : Nat) (observed : List Nat) (front rest : List (List α))
    (s : Simulation α) :
    frames budget observed (front ++ rest) s =
      ((frames budget observed front s).1 ++
          (frames budget observed rest (frames budget observed front s).2).1,
        (frames budget observed rest (frames budget observed front s).2).2) := by
  induction front generalizing s with
  | nil => rfl
  | cons targets front ih =>
    have h := ih (s.frame budget targets)
    simp only [List.cons_append, frames, h]

/-- Frames do not care about the phase. -/
theorem frames_phase (budget : Nat) (observed : List Nat) (targets : List (List α)) (s : Simulation α)
    (phase : Phase) :
    frames budget observed targets { s with phase } =
      ((frames budget observed targets s).1, { (frames budget observed targets s).2 with phase }) := by
  induction targets generalizing s with
  | nil => rfl
  | cons targets rest ih =>
    have h := ih (s.frame budget targets)
    have same : { s with phase }.frame budget targets = { s.frame budget targets with phase } := rfl
    simp only [frames, same, h]
    rfl

/-- What is observed has no effect. -/
theorem frames_observed (budget : Nat) (observed observed' : List Nat) (targets : List (List α))
    (s : Simulation α) :
    (frames budget observed targets s).2 = (frames budget observed' targets s).2 := by
  induction targets generalizing s with
  | nil => rfl
  | cons targets rest ih => exact ih (s.frame budget targets)

/-- Frames change the workspace, the last inputs and the number of samples. -/
theorem exists_of_frames (budget : Nat) (observed : List Nat) (targets : List (List α))
    (s : Simulation α) :
    ∃ workspace lastInputs, (frames budget observed targets s).2 =
      { s with workspace, lastInputs, elapsed := s.elapsed + targets.length } := by
  induction targets generalizing s with
  | nil => exact ⟨_, _, rfl⟩
  | cons targets rest ih =>
    obtain ⟨workspace, lastInputs, h⟩ := ih (s.frame budget targets)
    refine ⟨workspace, lastInputs, h.trans ?_⟩
    rw [List.length_cons, Nat.add_comm rest.length 1, ← Nat.add_assoc]
    rfl

/-! ## Inputs and outputs -/

/-- The sample of an input. -/
def sampleAt (k : Nat) (source : Option (Array α)) : α := source.elim 0 (·.getD k 0)

theorem inputFrames_eq (p : Plan α) (samples : Nat) :
    p.inputFrames samples = (List.range samples).map fun k => p.sources.map (sampleAt k) := by
  unfold Plan.inputFrames
  refine List.map_congr_left fun k _ => List.map_congr_left fun source _ => ?_
  cases source <;> rfl

omit [Scalar α] in
/-- Buffers that are all cut in the same way. -/
theorem sources_map (s : Simulation α) (cut : List α → List α) (inputs : List (String × List α)) :
    s.sources (inputs.map fun b => (b.1, cut b.2)) =
      (s.sources inputs).map (Option.map fun a => (cut a.toList).toArray) := by
  unfold sources
  rw [List.foldl_map]
  have blank : List.replicate s.law.inputs.length none =
      (List.replicate s.law.inputs.length none).map (Option.map fun a : Array α => (cut a.toList).toArray) := by
    rw [List.map_replicate]
    rfl
  conv_lhs => rw [blank]
  refine List.foldl_hom (List.map (Option.map fun a : Array α => (cut a.toList).toArray)) fun sources b => ?_
  cases s.inputPlace? b.1 with
  | none => rfl
  | some i => simp only [Option.elim_some, List.map_set, Option.map_some]

omit [Scalar α] in
@[simp] theorem length_sources (s : Simulation α) (inputs : List (String × List α)) :
    (s.sources inputs).length = s.law.inputs.length := by
  unfold sources
  have blank : (List.replicate s.law.inputs.length (none : Option (Array α))).length = s.law.inputs.length :=
    List.length_replicate
  generalize List.replicate s.law.inputs.length (none : Option (Array α)) = sources at blank
  induction inputs generalizing sources with
  | nil => exact blank
  | cons b inputs ih =>
    refine ih _ ?_
    dsimp only
    cases s.inputPlace? b.1 with
    | none => exact blank
    | some i => exact List.length_set.trans blank

/-- Every input has a value at every sample. -/
theorem length_of_mem_inputFrames {s : Simulation α} {r : Request α} {samples : Nat} {targets : List α}
    (h : targets ∈ (s.planned r).inputFrames samples) : targets.length = s.law.inputs.length := by
  rw [inputFrames_eq] at h
  obtain ⟨k, -, rfl⟩ := List.mem_map.mp h
  rw [List.length_map]
  exact s.length_sources r.inputs

/-- The columns of rows behind other rows. -/
theorem columns_append (n : Nat) (front rest : List (List α)) :
    columns n (front ++ rest) = (columns n front).zipWith (· ++ ·) (columns n rest) := by
  unfold columns
  rw [List.zipWith_map, List.zipWith_self]
  exact List.map_congr_left fun j _ => List.map_append

/-- The first samples of a run. -/
def Request.front (r : Request α) (n : Nat) : Request α :=
  { r with
    samples := n
    inputs := r.inputs.map fun b => (b.1, b.2.take n)
    outputs := r.outputs.map fun b => (b.1, b.2.take n) }

/-- The other samples of a run, in front of which no parameter changes. -/
def Request.rest (r : Request α) (n : Nat) : Request α :=
  { r with
    samples := r.samples - n
    inputs := r.inputs.map fun b => (b.1, b.2.drop n)
    outputs := r.outputs.map fun b => (b.1, b.2.drop n)
    bindings := [] }

/-- The values of the inputs in a run are those in its two parts. -/
theorem inputFrames_split (s : Simulation α) (r : Request α) (n₁ n₂ : Nat) :
    (s.planned r).inputFrames (n₁ + n₂) =
      (s.planned (r.front n₁)).inputFrames n₁ ++ (s.planned (r.rest n₁)).inputFrames n₂ := by
  simp only [inputFrames_eq, planned, Request.front, Request.rest, sources_map, List.map_map]
  rw [List.range_add, List.map_append, List.map_map]
  congr 1
  · refine List.map_congr_left fun k hk => List.map_congr_left fun source _ => ?_
    cases source with
    | none => rfl
    | some a =>
      have inside : k < n₁ := List.mem_range.mp hk
      simp [sampleAt, inside]
  · refine List.map_congr_left fun k _ => List.map_congr_left fun source _ => ?_
    cases source with
    | none => rfl
    | some a => simp [sampleAt]

/-! ## Runs that do not fail -/

/-- The last samples of all buffers are finite. -/
theorem divergence?_eq_none_iff {s : Simulation α} {names : List String} {buffers : List (List α)} :
    s.divergence? names buffers = none ↔
      ∀ x ∈ names.zip buffers, ∀ last ∈ x.2.getLast?, Scalar.isFinite last = true := by
  unfold divergence?
  rw [List.findSome?_eq_none_iff]
  refine forall₂_congr fun x _ => ?_
  obtain ⟨name, buffer⟩ := x
  simp only
  split
  · next empty => simp [empty]
  · next last found => simp [found]

/-- A simulation after a number of samples that were all finite. -/
def proceed (s : Simulation α) (samples : Nat) : Simulation α :=
  if samples = 0 then s else { s with phase := .running }

theorem run_eq_ok_iff {s s' : Simulation α} {r : Request α} {o : List (List α)} :
    s.run r = ⟨s', o, none⟩ ↔ s.Accepts r ∧ s.failure? r (s.planned r) = none ∧
      s' = (s.frameAll r (s.planned r)).2.proceed r.samples ∧
      o = columns (s.planned r).observed.length (s.frameAll r (s.planned r)).1 := by
  rcases s.run_cases r with ⟨accepted, h⟩ | ⟨refused, e, h, -⟩
  · rw [h, execute_eq]
    cases s.failure? r (s.planned r) with
    | some d => simp [Outcome.conclude]
    | none => simp [Outcome.conclude, accepted, proceed, eq_comm]
  · rw [h]
    simp [refused]

omit [Scalar α] in
theorem length_observed {s : Simulation α} {r : Request α} (h : s.Accepts r) :
    (s.planned r).observed.length = r.outputs.length := by
  unfold planned
  rw [List.length_filterMap_eq_countP, List.countP_eq_length]
  exact fun b hb => (h.outputs b hb).1

/-- Buffers that are finite at the end of two parts are so at the end of the whole. -/
theorem divergence?_append {s s₁ s₂ : Simulation α} {names : List String} {front rest : List (List α)}
    (h₁ : s₁.divergence? names front = none) (h₂ : s₂.divergence? names rest = none) :
    s.divergence? names (front.zipWith (· ++ ·) rest) = none := by
  rw [divergence?_eq_none_iff] at h₁ h₂ ⊢
  induction names generalizing front rest with
  | nil => exact fun _ h => absurd h List.not_mem_nil
  | cons name names ih =>
    cases front with
    | nil => exact fun _ h => absurd h (by simp)
    | cons b₁ front =>
      cases rest with
      | nil => exact fun _ h => absurd h (by simp)
      | cons b₂ rest =>
        simp only [List.zipWith_cons_cons, List.zip_cons_cons, List.forall_mem_cons] at h₁ h₂ ⊢
        refine ⟨fun last hl => ?_, ih h₁.2 h₂.2⟩
        rw [List.getLast?_append, Option.mem_def, Option.or_eq_some_iff] at hl
        rcases hl with hl | ⟨-, hl⟩
        · exact h₂.1 last hl
        · exact h₁.1 last hl

omit [Scalar α] in
/-- A request is acceptable if its parts are. -/
theorem Accepts.join {s s₁ : Simulation α} {r : Request α} {n₁ n₂ : Nat} (samples : r.samples = n₁ + n₂)
    (h₁ : s.Accepts (r.front n₁)) (h₂ : s₁.Accepts (r.rest n₁)) : s.Accepts r where
  alive := h₁.alive
  budget := h₁.budget
  inputs b hb := by
    obtain ⟨known, front⟩ := h₁.inputs _ (List.mem_map_of_mem hb)
    have rest := (h₂.inputs _ (List.mem_map_of_mem hb)).2
    simp only [List.length_take, List.length_drop, Request.front, Request.rest] at front rest
    exact ⟨known, by omega⟩
  outputs b hb := by
    obtain ⟨known, front⟩ := h₁.outputs _ (List.mem_map_of_mem hb)
    have rest := (h₂.outputs _ (List.mem_map_of_mem hb)).2
    simp only [List.length_take, List.length_drop, Request.front, Request.rest] at front rest
    exact ⟨known, by omega⟩
  bindings := h₁.bindings

/-! ## The two parts of a run -/

/-- Behind its bindings, a plan changes the workspace, the last inputs and the number of samples. -/
theorem exists_of_frameAll (s : Simulation α) (r : Request α) (p : Plan α) : ∃ workspace lastInputs,
    (s.frameAll r p).2 = { s.bindAll p.bindings with workspace, lastInputs, elapsed := s.elapsed + r.samples } := by
  obtain ⟨parameters, bound, same⟩ := s.exists_of_bindAll p.bindings
  obtain ⟨workspace, lastInputs, framed⟩ :=
    exists_of_frames r.budget p.observed (p.inputFrames r.samples) (s.bindAll p.bindings)
  refine ⟨workspace, lastInputs, framed.trans ?_⟩
  rw [inputFrames_eq, List.length_map, List.length_range, same]

theorem law_frameAll (s : Simulation α) (r : Request α) (p : Plan α) : (s.frameAll r p).2.law = s.law := by
  obtain ⟨workspace, lastInputs, framed⟩ := s.exists_of_frameAll r p
  rw [framed]
  exact s.law_bindAll p.bindings

omit [Scalar α] in
theorem proceed_cases (s : Simulation α) (n : Nat) :
    ∃ phase, s.proceed n = { s with phase } := by
  unfold proceed
  split
  · exact ⟨s.phase, rfl⟩
  · exact ⟨.running, rfl⟩

omit [Scalar α] in
theorem proceed_succ (s : Simulation α) (n : Nat) : s.proceed (n + 1) = { s with phase := .running } :=
  if_neg (Nat.succ_ne_zero n)

/-- Between two parts of a run only the phase may change. -/
theorem frames_proceed (budget : Nat) (observed : List Nat) (targets : List (List α)) (s : Simulation α)
    (n : Nat) :
    (frames budget observed targets (s.proceed n)).1 = (frames budget observed targets s).1 ∧
      (frames budget observed targets (s.proceed n)).2.proceed targets.length =
        (frames budget observed targets s).2.proceed (n + targets.length) := by
  obtain ⟨phase, h⟩ := s.proceed_cases n
  refine ⟨by rw [h, frames_phase], ?_⟩
  cases targets with
  | nil => rfl
  | cons targets rest =>
    rw [h, frames_phase, List.length_cons, ← Nat.add_assoc, proceed_succ, proceed_succ]

theorem frameAll_front (s : Simulation α) (r : Request α) (n : Nat) :
    s.frameAll (r.front n) (s.planned (r.front n)) = frames r.budget (s.planned r).observed
      ((s.planned (r.front n)).inputFrames n) (s.bindAll (s.planned r).bindings) := by
  unfold frameAll planned Request.front
  rw [List.filterMap_map]
  rfl

theorem frameAll_rest {s s₁ : Simulation α} (law : s₁.law = s.law) (r : Request α) (n : Nat) :
    s₁.frameAll (r.rest n) (s₁.planned (r.rest n)) = frames r.budget (s.planned r).observed
      ((s.planned (r.rest n)).inputFrames (r.samples - n)) s₁ := by
  have same : s₁.planned (r.rest n) = s.planned (r.rest n) := by
    unfold planned sources unknown? inputPlace? parameterPlace?
    rw [law]
  rw [same]
  unfold frameAll planned Request.rest
  rw [List.filterMap_map]
  rfl

/-- The rows of a run and the simulation at its end come from its parts. -/
theorem frameAll_split (s : Simulation α) {r : Request α} {n₁ n₂ : Nat} (samples : r.samples = n₁ + n₂)
    {s₁ : Simulation α} (h : s₁ = (s.frameAll (r.front n₁) (s.planned (r.front n₁))).2.proceed n₁) :
    (s.frameAll r (s.planned r)).1 = (s.frameAll (r.front n₁) (s.planned (r.front n₁))).1 ++
        (s₁.frameAll (r.rest n₁) (s₁.planned (r.rest n₁))).1 ∧
      (s.frameAll r (s.planned r)).2.proceed r.samples =
        (s₁.frameAll (r.rest n₁) (s₁.planned (r.rest n₁))).2.proceed (r.rest n₁).samples := by
  have whole : s.frameAll r (s.planned r) = frames r.budget (s.planned r).observed
      ((s.planned (r.front n₁)).inputFrames n₁ ++ (s.planned (r.rest n₁)).inputFrames n₂)
      (s.bindAll (s.planned r).bindings) := by
    rw [← inputFrames_split, ← samples]
    rfl
  have law : s₁.law = s.law := by
    obtain ⟨phase, same⟩ := proceed_cases (s.frameAll (r.front n₁) (s.planned (r.front n₁))).2 n₁
    rw [h, same]
    exact law_frameAll s _ _
  have remaining : r.samples - n₁ = n₂ := by omega
  have length : ((s.planned (r.rest n₁)).inputFrames n₂).length = n₂ := by
    rw [inputFrames_eq, List.length_map, List.length_range]
  rw [whole, frames_append, frameAll_rest law, remaining, ← frameAll_front]
  subst h
  obtain ⟨rows, state⟩ := frames_proceed r.budget (s.planned r).observed
    ((s.planned (r.rest n₁)).inputFrames n₂) (s.frameAll (r.front n₁) (s.planned (r.front n₁))).2 n₁
  rw [length] at state
  refine ⟨by rw [rows], ?_⟩
  change _ = Simulation.proceed _ (r.samples - n₁)
  rw [remaining, state, samples]

/-- A run whose two parts do not fail does not fail, and its buffers are those of the parts, joined. -/
theorem run_join {s s₁ s₂ : Simulation α} {r : Request α} {n₁ n₂ : Nat} {o₁ o₂ : List (List α)}
    (samples : r.samples = n₁ + n₂) (front : s.run (r.front n₁) = ⟨s₁, o₁, none⟩)
    (rest : s₁.run (r.rest n₁) = ⟨s₂, o₂, none⟩) :
    o₁.length = r.outputs.length ∧ o₂.length = r.outputs.length ∧
      s.run r = ⟨s₂, o₁.zipWith (· ++ ·) o₂, none⟩ := by
  obtain ⟨accepts₁, finite₁, end₁, columns₁⟩ := run_eq_ok_iff.mp front
  obtain ⟨accepts₂, finite₂, end₂, columns₂⟩ := run_eq_ok_iff.mp rest
  have accepts := Accepts.join samples accepts₁ accepts₂
  have width₁ := length_observed accepts₁
  have width₂ := length_observed accepts₂
  have width := length_observed accepts
  obtain ⟨rows, state⟩ := s.frameAll_split samples end₁
  have outputs : columns (s.planned r).observed.length (s.frameAll r (s.planned r)).1 =
      o₁.zipWith (· ++ ·) o₂ := by
    rw [rows, columns_append, columns₁, columns₂, width, width₁, width₂]
    simp only [Request.front, Request.rest, List.length_map]
  have lengths (n : Nat) (rows : List (List α)) : (columns n rows).length = n := by
    rw [columns, List.length_map, List.length_range]
  refine ⟨?_, ?_, run_eq_ok_iff.mpr ⟨accepts, ?_, end₂.trans state.symm, outputs.symm⟩⟩
  · rw [columns₁, lengths, width₁]
    exact List.length_map _
  · rw [columns₂, lengths, width₂]
    exact List.length_map _
  · unfold failure? at finite₁ finite₂ ⊢
    rw [outputs]
    rw [← columns₁] at finite₁
    rw [← columns₂] at finite₂
    simp only [Request.front, Request.rest, List.map_map] at finite₁ finite₂
    exact divergence?_append finite₁ finite₂

/-- A run over some samples is a run over the first of them followed by a run over the others, and what is observed
does not change where it ends. -/
theorem run_split (s : Simulation α) (r : Request α) :
    (∀ n₁ n₂ s₁ s₂ o₁ o₂, r.samples = n₁ + n₂ → s.run (r.front n₁) = ⟨s₁, o₁, none⟩ →
      s₁.run (r.rest n₁) = ⟨s₂, o₂, none⟩ →
        o₁.length = r.outputs.length ∧ o₂.length = r.outputs.length ∧
          s.run r = ⟨s₂, o₁.zipWith (· ++ ·) o₂, none⟩) ∧
    ∀ outputs s₁ s₂ o₁ o₂, s.run r = ⟨s₁, o₁, none⟩ → s.run { r with outputs } = ⟨s₂, o₂, none⟩ →
      s₁ = s₂ := by
  refine ⟨fun n₁ n₂ s₁ s₂ o₁ o₂ samples front rest => run_join samples front rest,
    fun outputs s₁ s₂ o₁ o₂ h₁ h₂ => ?_⟩
  obtain ⟨-, -, end₁, -⟩ := run_eq_ok_iff.mp h₁
  obtain ⟨-, -, end₂, -⟩ := run_eq_ok_iff.mp h₂
  rw [end₁, end₂]
  exact congrArg (Simulation.proceed · r.samples) (frames_observed ..)

omit [Scalar α] in
theorem Outcome.exists_eq {o : Outcome α} {outputs : List (List α)} {e? : Option Error}
    (h : o.outputs = outputs) (he : o.error? = e?) : ∃ s, o = ⟨s, outputs, e?⟩ := by
  subst h he
  exact ⟨o.simulation, rfl⟩

/-- An output that is the sum of all samples of the input, each multiplied by a gain. -/
def accumulator : UpdateLaw ℚ where
  sampleRate := 1
  unknowns := [.named "out"]
  inputs := [.named "in"]
  parameters := [⟨.named "gain", 2⟩]
  newton? := none
  assignments :=
    [⟨.named "out", .sym (Symbol.named "out").previous + .named "gain" * .named "in"⟩]

/-- Three samples, with another gain. -/
def accumulation : Request ℚ := ⟨3, [("in", [4, 5, 6])], [("out", [0, 0, 0])], [("gain", 3)], 1⟩

/-- The first sample, and then the other two. -/
theorem run_split_accumulator :
    ∃ s s₁ s₂, ofLaw accumulator ⟨1, 2, 1, 1⟩ = .ok s ∧ s.run (accumulation.front 1) = ⟨s₁, [[18]], none⟩ ∧
      s₁.run (accumulation.rest 1) = ⟨s₂, [[93 / 2, 81]], none⟩ ∧
        s.run accumulation = ⟨s₂, [[18, 93 / 2, 81]], none⟩ := by
  have parts : (ofLaw accumulator ⟨1, 2, 1, 1⟩).toOption.map (fun s =>
      let front := s.run (accumulation.front 1)
      let rest := front.simulation.run (accumulation.rest 1)
      (front.outputs, front.error?, rest.outputs, rest.error?)) =
        some ([[18]], none, [[93 / 2, 81]], none) := by decide +kernel
  cases built : ofLaw accumulator ⟨1, 2, 1, 1⟩ with
  | error e => rw [built] at parts; cases parts
  | ok s =>
    rw [built] at parts
    have values := Option.some.inj parts
    simp only [Prod.mk.injEq] at values
    obtain ⟨o₁, e₁, o₂, e₂⟩ := values
    obtain ⟨s₁, front⟩ : ∃ s₁, s.run (accumulation.front 1) = ⟨s₁, [[18]], none⟩ :=
      Outcome.exists_eq o₁ e₁
    rw [front] at o₂ e₂
    obtain ⟨s₂, rest⟩ : ∃ s₂, s₁.run (accumulation.rest 1) = ⟨s₂, [[93 / 2, 81]], none⟩ :=
      Outcome.exists_eq o₂ e₂
    obtain ⟨-, -, whole⟩ := (s.run_split accumulation).1 1 2 s₁ s₂ _ _ rfl front rest
    exact ⟨s, s₁, s₂, rfl, front, rest, whole⟩

end AnalogCircuit.Simulation
