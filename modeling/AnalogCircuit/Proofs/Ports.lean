import AnalogCircuit.Proofs.Assembly
import AnalogCircuit.Proofs.Circuits
import AnalogCircuit.Proofs.Tracking
/-!
# The input and the output of a circuit

A circuit from a text can be run from its input to its output. Its output is a node other than ground, whose voltage
is among the first unknowns of the equations and stays there; every source that is driven is driven by the one signal
of the circuit, and so that signal is an input of the equations. Neither is given up on the way to a simulation, and
no call changes them.
-/

namespace AnalogCircuit

variable {α : Type} [Scalar α]

/-! ## Circuits of netlists -/

namespace Circuit

theorem lt_of_resolve {nodes : List String} {name : String} {n : Node} (h : resolve nodes name = .ok n)
    (other : n.isGround = false) : n.index < nodes.length := by
  unfold resolve nodeIn? at h
  split at h
  · next found =>
    cases h
    split at found
    · cases found; cases other
    · obtain ⟨i, place, rfl⟩ := Option.map_eq_some_iff.mp found
      exact (List.idxOf?_eq_some_iff.mp place).1
  · cases h

/-- What a circuit has to have for a run from its input to its output. -/
structure HasPorts (c : Circuit α) : Prop where
  output : c.outputNode.isGround = false
  inside : c.outputNode.index < c.nodes.length
  drives : ∀ x ∈ c.components, x.device.DrivenBy c.signal

/-- All but the check that the output is not ground is in the netlist. -/
theorem Denotes.hasPorts {n : Netlist α} {c : Circuit α} (h : Denotes n c)
    (output : c.outputNode.isGround = false) : c.HasPorts := by
  obtain ⟨name, -, resolved⟩ := h.output
  exact ⟨output, lt_of_resolve resolved output, h.drives⟩

omit [Scalar α] in
theorem isGround_of_validate {c : Circuit α} (h : c.validate = .ok ()) : c.outputNode.isGround = false := by
  unfold validate at h
  cases ground : c.outputNode.isGround with
  | false => rfl
  | true =>
    rw [ground] at h
    dsimp only at h
    split at h <;> cases h

theorem hasPorts_ofText {text : String} {c : Circuit α} (h : ofText text = .ok c) : c.HasPorts := by
  obtain ⟨n, -, denotes, valid⟩ := ofText_eq_ok_iff.mp h
  exact denotes.hasPorts (isGround_of_validate valid)

/-! ## The equations -/

/-- The voltages of the nodes stay the first unknowns. -/
theorem voltages_subset_unknowns {c : Circuit α} {system : System α} (h : c.equations = .ok system) :
    c.nodes.tail.map Assembly.voltageSymbol ⊆ system.unknowns := by
  obtain ⟨assembly, performed, finished⟩ := exists_of_equations h
  have kept : c.nodes.tail.map Assembly.voltageSymbol ⊆
      ((Assembly.ofNodes c.nodes).performAll c.actions).1.unknowns := by
    refine Assembly.performAll_invariant
      (P := fun a => c.nodes.tail.map Assembly.voltageSymbol ⊆ a.unknowns) ?_ (List.Subset.refl _)
    intro action _ a a' performed kept
    cases performed with
    | unknown new => exact List.subset_append_of_subset_left _ kept
    | _ => exact kept
  rw [performed] at kept
  rwa [(Assembly.finish_eq_ok_iff.mp finished).1]

theorem outputName_mem_unknowns {c : Circuit α} (ports : c.HasPorts) {system : System α}
    (h : c.equations = .ok system) : .named c.outputName ∈ system.unknowns := by
  refine voltages_subset_unknowns h (List.mem_map.mpr ⟨c.nodes.getD c.outputNode.index "", ?_, rfl⟩)
  obtain ⟨i, index⟩ := Nat.exists_eq_succ_of_ne_zero (n := c.outputNode.index)
    (by simpa [Node.isGround] using ports.output)
  have inside := ports.inside
  rw [List.getD_eq_getElem?_getD, List.getElem?_eq_getElem inside, Option.getD_some, List.mem_iff_getElem]
  refine ⟨i, by rw [List.length_tail]; omega, ?_⟩
  rw [List.getElem_tail]
  simp only [index]

/-- The signal is an input if it drives a component. -/
theorem inputName_mem_inputs {c : Circuit α} (ports : c.HasPorts) {system : System α}
    (h : c.equations = .ok system) {name : String} (driven : c.inputName? = some name) :
    .named name ∈ system.inputs := by
  obtain ⟨i, found, rfl⟩ := Option.map_eq_some_iff.mp driven
  obtain ⟨x, hx, drive⟩ : ∃ x ∈ c.components, x.device.isDriven = true := by
    obtain ⟨lt, drive, -⟩ := List.findIdx?_eq_some_iff_getElem.mp found
    exact ⟨c.components[i], List.getElem_mem lt, drive⟩
  obtain ⟨assembly, performed, finished⟩ := exists_of_equations h
  rw [(Assembly.finish_eq_ok_iff.mp finished).1]
  refine Assembly.mem_inputs_of_performAll performed ?_
  refine List.mem_append_right _ (List.mem_flatMap.mpr ⟨x, hx, List.mem_append_right _ ?_⟩)
  obtain ⟨name, device⟩ := x
  cases device with
  | voltageSource p n v drive? =>
    cases drive? with
    | none => cases drive
    | some d =>
      have signal : d.input = c.signal := ports.drives _ hx p n v d rfl
      simp [Component.laws, Component.through, signal]
  | _ => cases drive

end Circuit

/-! ## Simulations -/

namespace Simulation

omit [Scalar α] in
theorem isSome_placeOf? {symbols : List Symbol} {name : String} (h : .named name ∈ symbols) :
    (placeOf? symbols name).isSome = true := by
  unfold placeOf?
  rw [List.findIdx?_isSome]
  exact List.any_eq_true.mpr ⟨_, h, beq_self_eq_true name⟩

/-- Nothing but divergence is in the way of a run from the input to the output. -/
structure HasPorts (s : Simulation α) : Prop where
  budget : s.iterations ≠ 0
  input : ∀ name ∈ s.input?, (s.inputPlace? name).isSome = true
  output : ∃ name ∈ s.output?, (s.unknown? name).isSome = true

/-- The simulation has come by calls from one of a circuit that a text denotes. -/
def FromText (s : Simulation α) : Prop :=
  ∃ text c settings s₀ cs, Circuit.ofText text = .ok c ∧ ofCircuit c settings = .ok s₀ ∧ s = s₀.after cs

theorem ofLaw_eq_ok {law : UpdateLaw α} {settings : Settings α} {s : Simulation α}
    (h : ofLaw law settings = .ok s) : s.law = law ∧ s.iterations ≠ 0 := by
  obtain ⟨_, valid, h⟩ := exists_of_bind_eq_ok h
  obtain ⟨p, -, h⟩ := exists_of_bind_eq_ok h
  cases h
  refine ⟨rfl, fun none => ?_⟩
  change settings.iterations = 0 at none
  unfold Settings.validate at valid
  obtain ⟨_, -, valid⟩ := exists_of_bind_eq_ok valid
  rw [if_pos none] at valid
  split at valid <;> cases valid

theorem FromText.hasPorts {s : Simulation α} (h : s.FromText) : s.HasPorts := by
  obtain ⟨text, c, settings, s₀, cs, read, built, rfl⟩ := h
  have tracks := (Built.ofCircuit built).initial.tracks_after cs
  obtain ⟨-, iterations, input, output⟩ := tracks.settings
  have ports := Circuit.hasPorts_ofText read
  obtain ⟨_, -, h⟩ := exists_of_bind_eq_ok built
  obtain ⟨system, equations, h⟩ := exists_of_bind_eq_ok h
  obtain ⟨law, solved, h⟩ := exists_of_bind_eq_ok h
  obtain ⟨s₁, simulated, h⟩ := exists_of_bind_eq_ok h
  cases h
  obtain ⟨same, positive⟩ := ofLaw_eq_ok simulated
  obtain ⟨_, -, unknowns, inputs, -⟩ := UpdateLaw.ofSystem_eq_ok solved
  refine ⟨iterations.trans_ne positive, fun name driven => isSome_placeOf? ?_, c.outputName, output,
    isSome_placeOf? ?_⟩
  · rw [input] at driven
    rw [tracks.law]
    change _ ∈ s₁.law.inputs
    rw [same, inputs]
    exact Circuit.inputName_mem_inputs ports equations driven
  · rw [tracks.law]
    change _ ∈ s₁.law.unknowns
    rw [same, unknowns]
    exact List.mem_append_left _ (Circuit.outputName_mem_unknowns ports equations)

end Simulation

end AnalogCircuit
