import AnalogCircuit.Proofs.Alike
/-!
# What calls keep

Whatever is called, the constants of a simulation stay in their registers, and the register of a parameter holds the
value of the parameter. Only bindings write there: samples write unknowns and temporaries, the steps around them
inputs, history and the time.
-/

namespace AnalogCircuit

variable {α : Type} [Scalar α]

/-! ## Registers before the first sample -/

namespace Registers

omit [Scalar α] in
@[simp] theorem size_writeAll (rs : Registers α) (vs : List (Reg × α)) : (rs.writeAll vs).size = rs.size := by
  induction vs generalizing rs with
  | nil => rfl
  | cons v vs ih => exact (ih _).trans (size_write ..)

theorem value_writeAll_of_ne {vs : List (Reg × α)} {r : Reg} (h : ∀ v ∈ vs, v.1 ≠ r) (rs : Registers α) :
    (rs.writeAll vs).value r = rs.value r := by
  induction vs generalizing rs with
  | nil => rfl
  | cons v vs ih =>
    obtain ⟨hv, hvs⟩ := List.forall_mem_cons.mp h
    exact (ih hvs _).trans (value_write_of_ne hv _)

end Registers

@[simp] theorem Program.size_registers₀ (p : Program α) : p.registers₀.size = p.registers :=
  (Registers.size_writeAll ..).trans Array.size_replicate

/-- At first all registers but those of constants are zero. -/
theorem Program.value_registers₀ {p : Program α} {r : Reg} (h : ∀ c ∈ p.constants, c.1 ≠ r) :
    p.registers₀.value r = 0 := by
  refine (Registers.value_writeAll_of_ne h _).trans ?_
  unfold Registers.value
  rw [Array.getD_eq_getD_getElem?, Array.getElem?_replicate]
  split <;> rfl

/-- A fixed register belongs to one of four groups. -/
theorem Layout.cases {l : Layout} {r : Reg} (h : r < l.size) :
    r < l.parameter 0 ∨ (∃ i < l.parameters, r = l.parameter i) ∨ r = l.previousTime ∨
      ∃ i < l.unknowns, r = l.unknown i := by
  change (r : Nat) < l.unknowns + 2 * l.inputs + l.parameters + 1 + l.unknowns at h
  by_cases below : r < l.parameter 0
  · exact .inl below
  obtain ⟨i, rfl⟩ := Nat.exists_eq_add_of_le (Nat.le_of_not_lt below)
  change l.unknowns + 2 * l.inputs + 0 + i < _ at h
  by_cases parameter : i < l.parameters
  · exact .inr (.inl ⟨i, parameter, rfl⟩)
  obtain ⟨j, rfl⟩ := Nat.exists_eq_add_of_le (Nat.le_of_not_lt parameter)
  cases j with
  | zero => exact .inr (.inr (.inl rfl))
  | succ j =>
    refine .inr (.inr (.inr ⟨j, by omega, ?_⟩))
    change l.unknowns + 2 * l.inputs + 0 + (l.parameters + (j + 1)) =
      l.unknowns + 2 * l.inputs + l.parameters + 1 + j
    omega

namespace Simulation

/-! ## New simulations -/

/-- The simulation is new: of the update law of a system, or of a circuit. -/
inductive Built (s : Simulation α) : Prop where
  | ofLaw {system : System α} {rate : α} {law : UpdateLaw α} {settings : Settings α}
      (solved : UpdateLaw.ofSystem system rate = .ok law) (built : ofLaw law settings = .ok s)
  | ofCircuit {c : Circuit α} {settings : Settings α} (built : ofCircuit c settings = .ok s)

/-- Nothing has happened to the simulation yet. -/
structure Initial (s : Simulation α) : Prop where
  compiled : s.Compiled
  parameters : s.parameters = s.law.parameters.map (·.default)
  workspace : s.workspace = s.program.workspace.update (loadParameters s.program s.parameters)
  lastInputs : s.lastInputs = List.replicate s.law.inputs.length 0
  elapsed : s.elapsed = 0
  phase : s.phase = .fresh

theorem initial_ofLaw {law : UpdateLaw α} (square : law.Square) {settings : Settings α}
    {s : Simulation α} (h : ofLaw law settings = .ok s) : s.Initial := by
  obtain ⟨-, -, h⟩ := exists_of_bind_eq_ok h
  obtain ⟨p, compiled, h⟩ := exists_of_bind_eq_ok h
  cases h
  obtain ⟨_, _, _, _, _, same⟩ := Program.ofLaw_steps compiled
  refine ⟨⟨?_, (Program.disciplined_ofLaw compiled).1, Program.squared_ofLaw square compiled⟩, rfl, rfl,
    rfl, rfl, rfl⟩
  change p.layout = Program.layoutOf law
  rw [same]

theorem exists_of_ofCircuit {c : Circuit α} {settings : Settings α} {s : Simulation α}
    (h : ofCircuit c settings = .ok s) :
    ∃ system rate law s₀, UpdateLaw.ofSystem system rate = .ok law ∧ ofLaw law settings = .ok s₀ ∧
      s = { s₀ with input? := c.inputName?, output? := some c.outputName } := by
  obtain ⟨-, -, h⟩ := exists_of_bind_eq_ok h
  obtain ⟨system, -, h⟩ := exists_of_bind_eq_ok h
  obtain ⟨law, solved, h⟩ := exists_of_bind_eq_ok h
  obtain ⟨s₀, built, h⟩ := exists_of_bind_eq_ok h
  cases h
  exact ⟨_, _, law, s₀, solved, built, rfl⟩

theorem Built.initial {s : Simulation α} (h : s.Built) : s.Initial := by
  cases h with
  | ofLaw solved built => exact initial_ofLaw (UpdateLaw.square_ofSystem solved) built
  | ofCircuit built =>
    obtain ⟨system, rate, law, s₀, solved, simulated, rfl⟩ := exists_of_ofCircuit built
    obtain ⟨compiled, parameters, workspace, lastInputs, elapsed, phase⟩ :=
      initial_ofLaw (UpdateLaw.square_ofSystem solved) simulated
    exact ⟨⟨compiled.layout, compiled.disciplined, compiled.squared⟩, parameters, workspace, lastInputs,
      elapsed, phase⟩

/-! ## Registers that only bindings change -/

/-- The register lies behind those of unknowns and inputs before the time, or holds a constant. -/
structure Kept (p : Program α) (r : Reg) : Prop where
  behind : p.layout.parameter 0 ≤ r
  time : r ≠ p.layout.previousTime
  unchanged : ¬p.Changes r

omit [Scalar α] in
theorem kept_parameter {p : Program α} {i : Nat} (h : i < p.layout.parameters) :
    Kept p (p.layout.parameter i) where
  behind := Nat.add_le_add_left (Nat.zero_le i) _
  time := Nat.ne_of_lt (Layout.parameter_lt h)
  unchanged := by
    have low := Layout.parameter_lt h
    rintro (⟨j, -, same⟩ | ⟨high, -⟩)
    · rw [same] at low
      exact absurd low (Nat.not_lt_of_le (Nat.le_add_right_of_le (Nat.le_add_right _ 1)))
    · exact absurd (low.trans p.layout.previousTime_lt_size) (Nat.not_lt_of_le high)

omit [Scalar α] in
theorem kept_constant {p : Program α} (disciplined : p.Disciplined) {c : Reg × α} (h : c ∈ p.constants) :
    Kept p c.1 where
  behind := by
    have low := disciplined.constants c h
    change p.layout.unknowns + 2 * p.layout.inputs + 0 ≤ c.1
    change p.layout.unknowns + 2 * p.layout.inputs + p.layout.parameters + 1 + p.layout.unknowns ≤ c.1 at low
    omega
  time := (Nat.ne_of_lt (Nat.lt_of_lt_of_le p.layout.previousTime_lt_size (disciplined.constants c h))).symm
  unchanged := by
    rintro (⟨j, hj, same⟩ | ⟨-, others⟩)
    · exact absurd (Program.unknown_lt_size hj)
        (Nat.not_lt_of_le (same ▸ disciplined.constants c h))
    · exact others c h rfl

theorem Kept.advance {p : Program α} {r : Reg} (h : Kept p r) (rs : Registers α) :
    (p.layout.advance rs).value r = rs.value r := by
  have behind : p.layout.unknowns + 2 * p.layout.inputs + 0 ≤ r := h.behind
  unfold Layout.advance
  rw [Layout.value_fill_of_not_mem (.inr ?_), Layout.value_fill_of_not_mem (.inr ?_)]
  · rw [List.length_map, List.length_range]
    change 0 + p.layout.unknowns ≤ r
    omega
  · rw [List.length_map, List.length_range]
    change p.layout.unknowns + p.layout.inputs + 0 + p.layout.inputs ≤ r
    omega

theorem Kept.clear {p : Program α} {r : Reg} (h : Kept p r) (rs : Registers α) :
    (p.layout.clear rs).value r = rs.value r := by
  have outside : r < p.layout.unknown 0 ∨ p.layout.unknown 0 + p.layout.unknowns ≤ r := by
    by_contra inside
    obtain ⟨low, high⟩ := not_or.mp inside
    obtain ⟨j, rfl⟩ := Nat.exists_eq_add_of_le (Nat.le_of_not_lt low)
    exact h.unchanged (.inl ⟨j, Nat.lt_of_add_lt_add_left (Nat.lt_of_not_le high), rfl⟩)
  unfold Layout.clear
  rw [Layout.value_fill_of_not_mem ?_, Layout.value_fill_of_not_mem (.inr ?_)]
  · rw [List.length_replicate, Nat.zero_add]
    exact h.behind
  · rw [List.length_replicate]
    exact outside

theorem Kept.internalStep {s : Simulation α} {w : Workspace α} (compiled : s.Compiled)
    (roomy : s.program.Roomy w.scratch) {r : Reg} (h : Kept s.program r) (budget : Nat) {targets : List α}
    (inputs : targets.length = s.law.inputs.length) (k : Nat) :
    (s.internalStep budget targets w k).registers.value r = w.registers.value r := by
  rw [(internalStep_registers compiled roomy budget targets k).1, h.advance,
    compiled.disciplined.value_step h.unchanged]
  refine (Registers.value_write_of_ne (Ne.symm h.time) _).trans (Layout.value_fill_of_not_mem (.inr ?_) _)
  have behind : s.program.layout.unknowns + 2 * s.program.layout.inputs + 0 ≤ r := h.behind
  have width : s.program.layout.inputs = s.law.inputs.length := congrArg Layout.inputs compiled.layout
  rw [List.length_zipWith, inputs]
  change s.program.layout.unknowns + 0 + min s.lastInputs.length s.law.inputs.length ≤ r
  omega

@[simp] theorem size_advance (l : Layout) (rs : Registers α) : (l.advance rs).size = rs.size := by
  unfold Layout.advance
  rw [Layout.size_fill, Layout.size_fill]

theorem size_internalStep {s : Simulation α} {w : Workspace α} (compiled : s.Compiled)
    (roomy : s.program.Roomy w.scratch) (budget : Nat) (targets : List α) (k : Nat) :
    (s.internalStep budget targets w k).registers.size = w.registers.size := by
  rw [(internalStep_registers compiled roomy budget targets k).1, size_advance, Program.size_step]
  exact (Registers.size_write ..).trans (Layout.size_fill ..)

/-- What the internal steps of a frame leave alone. -/
theorem foldl_internalStep {s : Simulation α} (compiled : s.Compiled) (budget : Nat) {targets : List α}
    (inputs : targets.length = s.law.inputs.length) (ks : List Nat) {w : Workspace α}
    (roomy : s.program.Roomy w.scratch) :
    let w' := ks.foldl (s.internalStep budget targets) w
    s.program.Roomy w'.scratch ∧ w'.registers.size = w.registers.size ∧
      ∀ r, Kept s.program r → w'.registers.value r = w.registers.value r := by
  induction ks generalizing w with
  | nil => exact ⟨roomy, rfl, fun _ _ => rfl⟩
  | cons k ks ih =>
    obtain ⟨-, roomy'⟩ := internalStep_registers compiled roomy budget targets k
    obtain ⟨roomy'', size, kept⟩ := ih roomy'
    refine ⟨roomy'', size.trans (size_internalStep compiled roomy budget targets k), fun r hr => ?_⟩
    exact (kept r hr).trans (hr.internalStep compiled roomy budget inputs k)

/-! ## What calls keep -/

/-- The simulation has come from `s₀` by calls: constants are where they were, parameters are in their registers, and
a parameter that no name reaches has its first value. -/
structure Tracks (s₀ s : Simulation α) : Prop where
  compiled : s.Compiled
  law : s.law = s₀.law
  program : s.program = s₀.program
  settings : s.oversample = s₀.oversample ∧ s.iterations = s₀.iterations ∧ s.input? = s₀.input? ∧
    s.output? = s₀.output?
  roomy : s.program.Roomy s.workspace.scratch
  size : s.workspace.registers.size = s₀.workspace.registers.size
  room : s.program.layout.size ≤ s.workspace.registers.size
  constants : ∀ c ∈ s.program.constants,
    s.workspace.registers.value c.1 = s₀.workspace.registers.value c.1
  length : s.parameters.length = s.law.parameters.length
  loaded : ∀ i v, s.parameters[i]? = some v →
    s.workspace.registers.value (s.program.layout.parameter i) = v
  unbound : ∀ i, (∀ name, s.parameterPlace? name ≠ some i) → s.parameters[i]? = s₀.parameters[i]?

section

variable {s₀ s : Simulation α}

/-- A parameter has a register. -/
theorem Tracks.parameter_lt (h : Tracks s₀ s) {i : Nat} (hi : i < s.parameters.length) :
    i < s.program.layout.parameters := by
  rw [h.compiled.layout]
  change i < s.law.parameters.length
  rwa [← h.length]

/-- Calls that leave parameters and what is kept alone. -/
theorem Tracks.of_kept (h : Tracks s₀ s) {s' : Simulation α}
    (same : ∃ workspace lastInputs elapsed phase, s' = { s with workspace, lastInputs, elapsed, phase })
    (roomy : s.program.Roomy s'.workspace.scratch)
    (size : s'.workspace.registers.size = s.workspace.registers.size)
    (kept : ∀ r, Kept s.program r →
      s'.workspace.registers.value r = s.workspace.registers.value r) : Tracks s₀ s' := by
  obtain ⟨workspace, lastInputs, elapsed, phase, rfl⟩ := same
  refine { h with
    compiled := ⟨h.compiled.layout, h.compiled.disciplined, h.compiled.squared⟩
    roomy := roomy, size := size.trans h.size, room := ?_, constants := fun c hc => ?_,
    loaded := fun i v hv => ?_ }
  · exact h.room.trans_eq size.symm
  · exact (kept _ (kept_constant h.compiled.disciplined hc)).trans (h.constants c hc)
  · have inside := (List.getElem?_eq_some_iff.mp hv).1
    exact (kept _ (kept_parameter (h.parameter_lt inside))).trans (h.loaded i v hv)

theorem Tracks.frame (h : Tracks s₀ s) (budget : Nat) {targets : List α}
    (inputs : targets.length = s.law.inputs.length) : Tracks s₀ (s.frame budget targets) := by
  obtain ⟨roomy, size, kept⟩ :=
    foldl_internalStep h.compiled budget inputs (List.range s.oversample) h.roomy
  exact h.of_kept ⟨_, _, _, _, rfl⟩ roomy size kept

theorem Tracks.reset (h : Tracks s₀ s) : Tracks s₀ s.reset := by
  refine h.of_kept ⟨_, _, _, _, rfl⟩ h.roomy ?_ fun r hr => hr.clear _
  exact (Layout.size_fill ..).trans (Layout.size_fill ..)

theorem Tracks.mark (h : Tracks s₀ s) (elapsed : Nat) (phase : Phase) :
    Tracks s₀ { s with elapsed, phase } :=
  h.of_kept ⟨_, _, _, _, rfl⟩ h.roomy rfl fun _ _ => rfl

omit [Scalar α] in
/-- The place of a parameter is one of its registers. -/
theorem Compiled.parameterPlace_lt (h : s.Compiled) {name : String} {i : Nat}
    (place : s.parameterPlace? name = some i) : i < s.program.layout.parameters := by
  have inside := lt_of_placeOf? place
  rw [List.length_map] at inside
  rwa [h.layout]

/-- A constant lies behind the registers of the parameters. -/
theorem Tracks.parameter_lt_constant (h : Tracks s₀ s) {c : Reg × α} (hc : c ∈ s.program.constants) {i : Nat}
    (hi : i < s.program.layout.parameters) : s.program.layout.parameter i < c.1 :=
  (Layout.parameter_lt hi).trans (s.program.layout.previousTime_lt_size.trans_le
    (h.compiled.disciplined.constants c hc))

theorem Tracks.bind (h : Tracks s₀ s) {name : String} {i : Nat} (place : s.parameterPlace? name = some i)
    (v : α) : Tracks s₀ (s.bind i v) := by
  have inside := h.compiled.parameterPlace_lt place
  refine { h with
    compiled := ⟨h.compiled.layout, h.compiled.disciplined, h.compiled.squared⟩
    roomy := h.roomy, size := ?_, room := ?_, constants := fun c hc => ?_,
    length := List.length_set.trans h.length, loaded := fun j w hj => ?_, unbound := fun j others => ?_ }
  · exact (Registers.size_write ..).trans h.size
  · exact h.room.trans_eq (Registers.size_write ..).symm
  · refine (Registers.value_write_of_ne ?_ v).trans (h.constants c hc)
    exact Nat.ne_of_lt (h.parameter_lt_constant hc inside)
  · change (s.parameters.set i v)[j]? = some w at hj
    change (s.workspace.registers.write (s.program.layout.parameter i) v).value
      (s.program.layout.parameter j) = w
    by_cases same : i = j
    · subst same
      obtain ⟨bound, hw⟩ := List.getElem?_eq_some_iff.mp hj
      rw [List.getElem_set_self] at hw
      have exists' := (Layout.parameter_lt inside).trans (s.program.layout.previousTime_lt_size.trans_le h.room)
      rw [Registers.value_write_self exists', hw]
    · rw [List.getElem?_set_ne same] at hj
      refine (Registers.value_write_of_ne (fun e => same ?_) v).trans (h.loaded j w hj)
      exact Nat.add_left_cancel e
  · change (s.parameters.set i v)[j]? = s₀.parameters[j]?
    have other : i ≠ j := by
      rintro rfl
      exact others name place
    rw [List.getElem?_set_ne other]
    exact h.unbound j others

/-! ### Parameters are loaded -/

/-- Loading parameters changes nothing else. -/
theorem value_loadParameters_of_ne {p : Program α} {r : Reg} {vs : List α}
    (h : ∀ i < vs.length, r ≠ p.layout.parameter i) (rs : Registers α) :
    (loadParameters p vs rs).value r = rs.value r := by
  refine Layout.value_fill_of_not_mem ?_ rs
  by_contra inside
  obtain ⟨low, high⟩ := not_or.mp inside
  obtain ⟨i, rfl⟩ := Nat.exists_eq_add_of_le (Nat.le_of_not_lt low)
  exact h i (Nat.lt_of_add_lt_add_left (Nat.lt_of_not_le high)) rfl

theorem value_loadParameters {p : Program α} {vs : List α} {rs : Registers α} {i : Nat} {v : α}
    (hv : vs[i]? = some v) (size : p.layout.parameter i < rs.size) :
    (loadParameters p vs rs).value (p.layout.parameter i) = v := by
  obtain ⟨inside, rfl⟩ := List.getElem?_eq_some_iff.mp hv
  exact Layout.value_fill inside size

/-- Loading the defaults makes a simulation's parameters new. -/
theorem Tracks.resetParameters (h : Tracks s₀ s) (fresh : s₀.parameters = s₀.law.parameters.map (·.default)) :
    Tracks s₀ s.resetParameters := by
  have length : (s.law.parameters.map (·.default)).length = s.program.layout.parameters := by
    rw [List.length_map, h.compiled.layout]
    rfl
  refine { h with
    compiled := ⟨h.compiled.layout, h.compiled.disciplined, h.compiled.squared⟩
    roomy := h.roomy, size := ?_, room := ?_, constants := fun c hc => ?_,
    length := List.length_map _, loaded := fun i v hv => ?_, unbound := fun i _ => ?_ }
  · exact (Layout.size_fill ..).trans h.size
  · exact h.room.trans_eq (Layout.size_fill ..).symm
  · refine (value_loadParameters_of_ne (fun i hi => ?_) _).trans (h.constants c hc)
    exact Nat.ne_of_gt (h.parameter_lt_constant hc (hi.trans_eq length))
  · refine value_loadParameters hv ?_
    have inside : i < s.program.layout.parameters :=
      (List.getElem?_eq_some_iff.mp hv).1.trans_eq length
    exact (Layout.parameter_lt inside).trans (s.program.layout.previousTime_lt_size.trans_le h.room)
  · rw [fresh, ← h.law]
    rfl

/-- A new simulation has come from itself. -/
theorem Initial.tracks (h : s₀.Initial) : Tracks s₀ s₀ := by
  have room : s₀.program.layout.size ≤ s₀.workspace.registers.size := by
    rw [h.workspace]
    refine h.compiled.disciplined.room.trans_eq (Eq.symm ((Layout.size_fill ..).trans ?_))
    exact Program.size_registers₀ _
  refine ⟨h.compiled, rfl, rfl, ⟨rfl, rfl, rfl, rfl⟩, ?_, rfl, room, fun _ _ => rfl, ?_, ?_, fun _ _ => rfl⟩
  · rw [h.workspace]
    exact s₀.program.roomy_workspace
  · rw [h.parameters, List.length_map]
  · intro i v hv
    have inside : i < s₀.program.layout.parameters := by
      have := (List.getElem?_eq_some_iff.mp hv).1
      rw [h.parameters, List.length_map] at this
      rwa [h.compiled.layout]
    have exists' := (Layout.parameter_lt inside).trans (s₀.program.layout.previousTime_lt_size.trans_le room)
    rw [h.workspace] at exists' ⊢
    exact value_loadParameters hv (exists'.trans_eq (Layout.size_fill ..))

/-- Calls one after the other. -/
def after (s : Simulation α) (cs : List (Call α)) : Simulation α :=
  cs.foldl (fun s c => (s.perform c).simulation) s

theorem Initial.tracks_after (h : s₀.Initial) (cs : List (Call α)) : Tracks s₀ (s₀.after cs) := by
  have call (s : Simulation α) (c : Call α) (tracks : Tracks s₀ s) : Tracks s₀ (s.perform c).simulation :=
    perform_invariant (fun _ _ _ v place tracks => tracks.bind place v)
      (fun _ budget _ inputs tracks => tracks.frame budget inputs)
      (fun _ elapsed phase tracks => tracks.mark elapsed phase)
      (fun _ tracks => tracks.resetParameters h.parameters) (fun _ tracks => tracks.reset) c tracks
  have fold (cs : List (Call α)) (s : Simulation α) (tracks : Tracks s₀ s) : Tracks s₀ (s.after cs) := by
    induction cs generalizing s with
    | nil => exact tracks
    | cons c cs ih => exact ih _ (call s c tracks)
  exact fold cs s₀ h.tracks

end

end Simulation

end AnalogCircuit
