import AnalogCircuit.Proofs.Tracking
/-!
# Resets

A simulation that is reset looks like a new one with the same parameters, whatever has happened to it. A reset clears
all fixed registers but those of the parameters and of the time; parameters and constants are kept by every call, and
all that is left cannot be seen.
-/

namespace AnalogCircuit.Simulation

variable {α : Type} [Scalar α]

section

variable {s₀ s : Simulation α}

/-! ## Resets look new -/

/-- No sample has been produced, and nothing is known of unknowns and inputs. -/
structure Cleared (s : Simulation α) : Prop where
  history : ∀ r < s.program.layout.parameter 0, s.workspace.registers.value r = 0
  unknowns : ∀ i < s.program.layout.unknowns, s.workspace.registers.value (s.program.layout.unknown i) = 0
  lastInputs : s.lastInputs = List.replicate s.law.inputs.length 0
  elapsed : s.elapsed = 0
  phase : s.phase = .fresh

theorem cleared_reset (s : Simulation α) : s.reset.Cleared where
  history r hr := by
    have front : s.program.layout.parameter 0 ≤ s.program.layout.unknown 0 :=
      Nat.le_add_right_of_le (Nat.le_add_right_of_le (Nat.le_add_right _ _))
    refine (Layout.value_fill_of_not_mem (.inl (hr.trans_le front)) _).trans ?_
    exact Layout.value_fill_replicate (Nat.zero_le r) (hr.trans_eq (Nat.zero_add _).symm) _
  unknowns i hi :=
    Layout.value_fill_replicate (Nat.le_add_right _ i) (Nat.add_lt_add_left hi _) _
  lastInputs := rfl
  elapsed := rfl
  phase := rfl

/-- Registers of parameters are neither history nor unknowns. -/
theorem Cleared.of_parameters (h : s.Cleared) {s' : Simulation α}
    (same : ∃ parameters workspace, s' = { s with parameters, workspace })
    (kept : ∀ r, (∀ i < s.program.layout.parameters, r ≠ s.program.layout.parameter i) →
      r < s.program.layout.size → s'.workspace.registers.value r = s.workspace.registers.value r) :
    s'.Cleared := by
  obtain ⟨parameters, workspace, rfl⟩ := same
  refine ⟨fun r hr => ?_, fun i hi => ?_, h.lastInputs, h.elapsed, h.phase⟩
  · change r < s.program.layout.parameter 0 at hr
    refine (kept r (fun i _ => ?_) ?_).trans (h.history r hr)
    · exact Nat.ne_of_lt (hr.trans_le (Nat.add_le_add_left (Nat.zero_le i) _))
    · refine hr.trans (Nat.lt_of_le_of_lt ?_ s.program.layout.previousTime_lt_size)
      exact Nat.le_add_right _ _
  · refine (kept _ (fun j hj => ?_) (Program.unknown_lt_size hi)).trans (h.unknowns i hi)
    refine Nat.ne_of_gt ((Layout.parameter_lt hj).trans ?_)
    exact Nat.lt_of_lt_of_le (Nat.lt_succ_self _) (Nat.le_add_right _ i)

theorem Cleared.bind (h : s.Cleared) {i : Nat} (inside : i < s.program.layout.parameters) (v : α) :
    (s.bind i v).Cleared :=
  h.of_parameters ⟨_, _, rfl⟩ fun _ others _ => Registers.value_write_of_ne (Ne.symm (others i inside)) v

theorem Initial.cleared (h : s₀.Initial) : s₀.Cleared := by
  have length : s₀.parameters.length = s₀.program.layout.parameters := by
    rw [h.parameters, List.length_map, h.compiled.layout]
    rfl
  have start : ({ s₀ with workspace := s₀.program.workspace } : Simulation α).Cleared := by
    have zero {r : Reg} (hr : r < s₀.program.layout.size) : s₀.program.registers₀.value r = 0 :=
      Program.value_registers₀ fun c hc => Nat.ne_of_gt (hr.trans_le (h.compiled.disciplined.constants c hc))
    refine ⟨fun _ hr => zero (hr.trans (Nat.lt_of_le_of_lt ?_ (Layout.previousTime_lt_size _))),
      fun i hi => zero (Program.unknown_lt_size hi), h.lastInputs, h.elapsed, h.phase⟩
    exact Nat.le_add_right _ _
  refine start.of_parameters ⟨s₀.parameters, s₀.workspace, rfl⟩ fun r others _ => ?_
  rw [h.workspace]
  exact value_loadParameters_of_ne (fun i hi => others i (hi.trans_eq length)) _

/-- All that can be seen of a simulation that has been cleared are its parameters. -/
theorem Tracks.alike {s' : Simulation α} (h : Tracks s₀ s) (h' : Tracks s₀ s') (cleared : s.Cleared)
    (cleared' : s'.Cleared) (parameters : s'.parameters = s.parameters) : Alike s s' := by
  have law : s'.law = s.law := h'.law.trans h.law.symm
  have program : s'.program = s.program := h'.program.trans h.program.symm
  have roomy' := h'.roomy
  have constants' := h'.constants
  have loaded' := h'.loaded
  have history' := cleared'.history
  have unknowns' := cleared'.unknowns
  rw [program] at roomy' constants' loaded' history' unknowns'
  refine ⟨s'.workspace, ?_, ⟨h.size.trans h'.size.symm, fun r hr => ?_⟩, h.roomy, roomy'⟩
  · obtain ⟨oversample, iterations, input, output⟩ := h.settings
    obtain ⟨oversample', iterations', input', output'⟩ := h'.settings
    have lastInputs := cleared'.lastInputs.trans (law ▸ cleared.lastInputs.symm)
    have elapsed := cleared'.elapsed.trans cleared.elapsed.symm
    have phase := cleared'.phase.trans cleared.phase.symm
    rw [← oversample] at oversample'
    rw [← iterations] at iterations'
    rw [← input] at input'
    rw [← output] at output'
    obtain ⟨_, _, _, _, _, _, workspace', _, _, _, _⟩ := s'
    dsimp only at law program oversample' iterations' input' output' parameters lastInputs elapsed phase
    rw [law, program, oversample', iterations', input', output', parameters, lastInputs, elapsed, phase]
  · obtain ⟨fixed | ⟨c, hc, rfl⟩, time⟩ := hr
    · rcases Layout.cases fixed with below | ⟨i, hi, rfl⟩ | rfl | ⟨i, hi, rfl⟩
      · rw [cleared.history r below, history' r below]
      · have inside : i < s.parameters.length := by
          rw [h.length]
          rwa [h.compiled.layout] at hi
        have found : s.parameters[i]? = some s.parameters[i] := List.getElem?_eq_getElem inside
        rw [h.loaded i _ found, loaded' i _ (by rw [parameters, found])]
      · exact absurd rfl time
      · rw [cleared.unknowns i hi, unknowns' i hi]
    · rw [h.constants c hc, constants' c hc]

/-! ## The same values again -/

omit [Scalar α] in
/-- What a binding preserves is preserved where several parameters are set. -/
theorem setParameters_invariant {P : Simulation α → Prop}
    (bind : ∀ s name i v, s.parameterPlace? name = some i → P s → P (s.bind i v)) {s' : Simulation α}
    {bindings : List (String × α)} (h : P s) (set : s.setParameters bindings = .ok s') : P s' := by
  induction bindings generalizing s with
  | nil => cases set; exact h
  | cons b bindings ih =>
    unfold setParameters at set
    rw [List.foldlM_cons] at set
    obtain ⟨s₁, first, rest⟩ := exists_of_bind_eq_ok set
    rcases s.requireParameter_cases b.1 with ⟨i, place, found⟩ | ⟨-, unknown⟩
    · simp only [setParameter, found] at first
      cases first
      exact ih (bind s b.1 i b.2 place h) rest
    · simp only [setParameter, unknown] at first
      cases first

/-- The names of the parameters with their values. -/
def currentBindings (s : Simulation α) : List (String × α) :=
  s.law.parameters.filterMap fun p => (s.parameter? p.symbol.name).map (p.symbol.name, ·)

omit [Scalar α] in
theorem mem_currentBindings {name : String} {v : α} :
    (name, v) ∈ s.currentBindings ↔
      (∃ p ∈ s.law.parameters, p.symbol.name = name) ∧ s.parameter? name = some v := by
  unfold currentBindings
  simp only [List.mem_filterMap, Option.map_eq_some_iff, Prod.mk.injEq]
  constructor
  · rintro ⟨p, hp, v', found, rfl, rfl⟩
    exact ⟨⟨p, hp, rfl⟩, found⟩
  · rintro ⟨⟨p, hp, rfl⟩, found⟩
    exact ⟨p, hp, v, found, rfl, rfl⟩

omit [Scalar α] in
/-- Bindings to some values leave these values, wherever they bind. -/
theorem getElem?_bindAll {values : List α} {bindings : List (Nat × α)} {i : Nat}
    (length : s.parameters.length = values.length) (right : ∀ b ∈ bindings, values[b.1]? = some b.2)
    (bound : s.parameters[i]? = values[i]? ∨ ∃ b ∈ bindings, b.1 = i) :
    (s.bindAll bindings).parameters[i]? = values[i]? := by
  induction bindings generalizing s with
  | nil => exact bound.resolve_right fun ⟨_, hb, _⟩ => absurd hb List.not_mem_nil
  | cons b bindings ih =>
    obtain ⟨now, later⟩ := List.forall_mem_cons.mp right
    refine ih (s := s.bind b.1 b.2) (List.length_set.trans length) later ?_
    change (s.parameters.set b.1 b.2)[i]? = values[i]? ∨ _
    by_cases same : b.1 = i
    · subst same
      have inside := (List.getElem?_eq_some_iff.mp now).1
      rw [List.getElem?_set_self (length ▸ inside), now]
      exact .inl rfl
    · rw [List.getElem?_set_ne same]
      refine bound.imp_right fun ⟨b', hb', place⟩ => ⟨b', ?_, place⟩
      rcases List.mem_cons.mp hb' with rfl | hb'
      · exact absurd place same
      · exact hb'

theorem Tracks.parameterPlace? (h : Tracks s₀ s) (name : String) :
    s.parameterPlace? name = s₀.parameterPlace? name := by
  unfold Simulation.parameterPlace?
  rw [h.law]

/-- A new simulation can be given the values that the parameters have now. -/
theorem Tracks.exists_setParameters (initial : s₀.Initial) (h : Tracks s₀ s) :
    ∃ fresh, s₀.setParameters s.currentBindings = .ok fresh ∧ fresh.parameter? = s.parameter? := by
  have known : ∀ b ∈ s.currentBindings, (s₀.parameterPlace? b.1).isSome = true := by
    intro b hb
    obtain ⟨i, place, -⟩ := Option.bind_eq_some_iff.mp (mem_currentBindings.mp hb).2
    rw [← h.parameterPlace?, place]
    rfl
  have length : s₀.parameters.length = s.parameters.length := by
    rw [h.length, h.law, initial.parameters, List.length_map]
  refine ⟨_, s₀.setParameters_eq known, funext fun name => ?_⟩
  have place : ∀ bindings : List (Nat × α),
      (s₀.bindAll bindings).parameterPlace? name = s.parameterPlace? name := by
    intro bindings
    unfold Simulation.parameterPlace?
    rw [law_bindAll, h.law]
  unfold parameter?
  rw [place]
  refine Option.bind_congr fun i found => getElem?_bindAll length (fun b hb => ?_) (.inr ?_)
  · obtain ⟨⟨name', v⟩, hb', reached⟩ := List.mem_filterMap.mp hb
    obtain ⟨j, found', rfl⟩ := Option.map_eq_some_iff.mp reached
    obtain ⟨k, found'', value⟩ := Option.bind_eq_some_iff.mp (mem_currentBindings.mp hb').2
    rw [h.parameterPlace?] at found''
    cases found'.symm.trans found''
    exact value
  · obtain ⟨inside, named, -⟩ := List.findIdx?_eq_some_iff_getElem.mp found
    rw [List.length_map] at inside
    rw [List.getElem_map, beq_iff_eq] at named
    have bound : i < s.parameters.length := by rwa [h.length]
    have value : s.parameter? name = some s.parameters[i] :=
      Option.bind_eq_some_iff.mpr ⟨i, found, List.getElem?_eq_getElem bound⟩
    have current : (name, s.parameters[i]) ∈ s.currentBindings :=
      mem_currentBindings.mpr ⟨⟨_, List.getElem_mem inside, named⟩, value⟩
    refine ⟨(i, s.parameters[i]), List.mem_filterMap.mpr ⟨_, current, ?_⟩, rfl⟩
    rw [← h.parameterPlace?, found]
    rfl

/-- Parameters that look the same are the same, even if no name reaches them. -/
theorem Tracks.parameters_eq {s' : Simulation α} (h : Tracks s₀ s) (h' : Tracks s₀ s')
    (same : s'.parameter? = s.parameter?) : s'.parameters = s.parameters := by
  refine List.ext_getElem? fun i => ?_
  by_cases reached : ∃ name, s₀.parameterPlace? name = some i
  · obtain ⟨name, place⟩ := reached
    have value := congrFun same name
    unfold parameter? at value
    rwa [h.parameterPlace?, h'.parameterPlace?, place] at value
  · have unreached : ∀ name, s₀.parameterPlace? name ≠ some i := fun name place => reached ⟨name, place⟩
    rw [h.unbound i fun name => h.parameterPlace? name ▸ unreached name,
      h'.unbound i fun name => h'.parameterPlace? name ▸ unreached name]

/-- After a reset a simulation cannot be told from a new one whose parameters have been given the same values, whatever
calls have been made before and are made later. -/
theorem reset_observe (built : s₀.Built) (cs : List (Call α)) :
    (∃ fresh, s₀.setParameters (s₀.after cs).currentBindings = .ok fresh ∧
        fresh.parameter? = (s₀.after cs).parameter?) ∧
      ∀ bindings fresh, s₀.setParameters bindings = .ok fresh →
        fresh.parameter? = (s₀.after cs).parameter? →
          (s₀.after cs).reset.view = fresh.view ∧
            ∀ later, (s₀.after cs).reset.observe later = fresh.observe later := by
  have initial := built.initial
  have tracks := initial.tracks_after cs
  refine ⟨tracks.exists_setParameters initial, fun bindings fresh set same => ?_⟩
  obtain ⟨tracks', cleared'⟩ : Tracks s₀ fresh ∧ fresh.Cleared := by
    refine setParameters_invariant (P := fun s => Tracks s₀ s ∧ s.Cleared) (fun s name i v place h => ?_)
      ⟨initial.tracks, initial.cleared⟩ set
    exact ⟨h.1.bind place v, h.2.bind (h.1.compiled.parameterPlace_lt place) v⟩
  have alike : Alike (s₀.after cs).reset fresh :=
    tracks.reset.alike tracks' (cleared_reset _) cleared' (tracks.parameters_eq tracks' same)
  exact ⟨alike.view_eq tracks.reset.compiled, alike.observe_eq tracks.reset.compiled⟩

end

/-- A capacitor that is charged by an input with a gain and discharged by a current that grows with the cube of the
voltage. -/
def cubicDischarge : System ℚ :=
  let v := Expr.named "v"
  { unknowns := [.named "v"]
    equations := [⟨.mkDerivative v .time, .named "gain" * .named "in" - .mkPow v (.mkNum 3)⟩]
    inputs := [.named "in"]
    parameters := [⟨.named "gain", 1⟩] }

/-- A parameter is set, two samples are produced, and a call is refused. -/
def trial : List (Call ℚ) :=
  [.setParameter "gain" 3, .run ⟨2, [("in", [8, 0])], [], [], 2⟩, .setParameter "pain" 5]

theorem reset_observe_cubicDischarge :
    ∃ law s₀, UpdateLaw.ofSystem cubicDischarge 1 = .ok law ∧ ofLaw law ⟨1, 1, 2, 1⟩ = .ok s₀ ∧
      ∃ fresh, s₀.setParameters [("gain", 3)] = .ok fresh ∧ (s₀.after trial).reset.view = fresh.view ∧
        ∀ later, (s₀.after trial).reset.observe later = fresh.observe later := by
  have bindings : ((UpdateLaw.ofSystem cubicDischarge 1).toOption.bind fun law =>
      (ofLaw law ⟨1, 1, 2, 1⟩).toOption.map fun s₀ => (s₀.after trial).currentBindings) =
        some [("gain", 3)] := by decide +kernel
  cases solved : UpdateLaw.ofSystem cubicDischarge 1 with
  | error e => rw [solved] at bindings; cases bindings
  | ok law =>
    rw [solved] at bindings
    cases built : ofLaw law ⟨1, 1, 2, 1⟩ with
    | error e => simp only [Except.toOption, built, Option.bind_some] at bindings; cases bindings
    | ok s₀ =>
      simp only [Except.toOption, built, Option.bind_some, Option.map_some, Option.some.injEq] at bindings
      obtain ⟨⟨fresh, set, same⟩, observed⟩ := reset_observe (.ofLaw solved built) trial
      refine ⟨law, s₀, rfl, built, fresh, bindings ▸ set, observed _ fresh set same⟩

end AnalogCircuit.Simulation
