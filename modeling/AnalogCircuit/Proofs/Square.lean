import AnalogCircuit.Proofs.Circuits
import AnalogCircuit.Proofs.Names
import AnalogCircuit.Proofs.Runs
/-!
# Square systems

Every element states the current of each of its terminals once, and adds as many equations as it introduces branch
currents. The names in a netlist keep all symbols and terminals apart. So the equations of a circuit from a text are as
many as the unknowns, which are all different, unless a symbol is undefined or the input is also a parameter.
-/

namespace AnalogCircuit

variable {α : Type}

/-! ## What an element contributes -/

namespace Component

/-- The names of the branch currents of an element: one of an inductor or a source of voltage, two of a transformer. -/
def branches (c : Component α) : List String :=
  match c.device with
  | .inductor .. | .voltageSource .. => ["i[" ++ c.name ++ "]"]
  | .transformer .. => ["i[" ++ c.name ++ ".p]", "i[" ++ c.name ++ ".s]"]
  | _ => []

/-- The input signal that drives an element, if there is one. -/
def signals (c : Component α) : List Symbol :=
  match c.device with
  | .voltageSource _ _ _ (some drive) => [.named drive.input]
  | _ => []

variable [Scalar α]

/-- The currents into an element at its terminals. -/
def currents (v : Node → Expr α) (c : Component α) : List (Connection α) := (c.laws v).flatMap (·.stated)

/-- The equations of the branches of an element. -/
def equations (v : Node → Expr α) (c : Component α) : List (Equation α) := (c.laws v).flatMap (·.added)

variable {v : Node → Expr α}

theorem introduced_laws (c : Component α) : (c.laws v).flatMap (·.introduced) = c.branches.map .named := by
  obtain ⟨name, device⟩ := c
  cases device with
  | voltageSource p n e drive? => cases drive? <;> simp [laws, through, Action.introduced, branches]
  | _ => simp [laws, through, Action.introduced, branches, String.append_assoc]

theorem signals_laws (c : Component α) : (c.laws v).flatMap (·.signals) = c.signals := by
  obtain ⟨name, device⟩ := c
  cases device with
  | voltageSource p n e drive? => cases drive? <;> rfl
  | _ => rfl

theorem declared_laws (c : Component α) : (c.laws v).flatMap (·.declared) = [] := by
  obtain ⟨name, device⟩ := c
  cases device with
  | voltageSource p n e drive? => cases drive? <;> rfl
  | _ => rfl

theorem connected_laws (c : Component α) : (c.laws v).flatMap (·.connected) = [] := by
  obtain ⟨name, device⟩ := c
  cases device with
  | voltageSource p n e drive? => cases drive? <;> rfl
  | _ => rfl

/-- The current of each terminal is stated once, in the order of the terminals. -/
theorem terminals_currents (c : Component α) : (c.currents v).map (·.terminal) = c.terminals := by
  obtain ⟨name, device⟩ := c
  cases device with
  | voltageSource p n e drive? => cases drive? <;> rfl
  | _ => rfl

/-- There are as many equations as branch currents. -/
theorem length_equations (c : Component α) : (c.equations v).length = c.branches.length := by
  obtain ⟨name, device⟩ := c
  cases device with
  | voltageSource p n e drive? => cases drive? <;> rfl
  | _ => rfl

end Component

/-! ## What a circuit contributes -/

namespace Circuit

/-- The unknowns: the voltages of the nodes other than ground, and the branch currents. -/
def unknowns (c : Circuit α) : List Symbol :=
  c.nodes.tail.map Assembly.voltageSymbol ++ c.components.flatMap (·.branches.map .named)

/-- The parameters with their defaults. -/
def knobs (c : Circuit α) : List (AnalogCircuit.Parameter α) := c.parameters.map fun p => ⟨.named p.name, p.default⟩

variable [Scalar α]

/-- The equations of all branches. -/
def elementEquations (c : Circuit α) : List (Equation α) :=
  c.components.flatMap (·.equations (Assembly.voltageOf c.nodes))

/-- The currents into all elements. -/
def currents (c : Circuit α) : List (Connection α) :=
  c.components.flatMap (·.currents (Assembly.voltageOf c.nodes))

theorem flatMap_actions {β : Type} (c : Circuit α) (f : Action α → List β) :
    c.actions.flatMap f = c.parameters.flatMap (fun p => f (.parameter p.name p.default)) ++
      c.components.flatMap fun x =>
        x.terminals.flatMap (fun t => f (.connect t)) ++ (x.laws (Assembly.voltageOf c.nodes)).flatMap f := by
  simp [actions, Component.actions, List.flatMap_append, List.flatMap_map, List.flatMap_assoc]

/-- What neither parameters nor terminals contribute comes from the laws of the elements. -/
theorem flatMap_laws {β : Type} (c : Circuit α) {f : Action α → List β}
    (parameter : ∀ name default, f (.parameter name default) = []) (connect : ∀ t, f (.connect t) = []) :
    c.actions.flatMap f = c.components.flatMap fun x => (x.laws (Assembly.voltageOf c.nodes)).flatMap f := by
  have none {γ : Type} (l : List γ) : l.flatMap (fun _ => ([] : List β)) = [] :=
    List.flatMap_eq_nil_iff.mpr fun _ _ => rfl
  simp only [flatMap_actions, parameter, connect, none, List.nil_append]

theorem introduced_actions (c : Circuit α) :
    c.actions.flatMap (·.introduced) = c.components.flatMap (·.branches.map .named) := by
  rw [flatMap_laws c (fun _ _ => rfl) fun _ => rfl]
  simp only [Component.introduced_laws]

theorem signals_actions (c : Circuit α) : c.actions.flatMap (·.signals) = c.components.flatMap (·.signals) := by
  rw [flatMap_laws c (fun _ _ => rfl) fun _ => rfl]
  simp only [Component.signals_laws]

theorem stated_actions (c : Circuit α) : c.actions.flatMap (·.stated) = c.currents :=
  flatMap_laws c (fun _ _ => rfl) fun _ => rfl

theorem added_actions (c : Circuit α) : c.actions.flatMap (·.added) = c.elementEquations :=
  flatMap_laws c (fun _ _ => rfl) fun _ => rfl

theorem declared_actions (c : Circuit α) : c.actions.flatMap (·.declared) = c.knobs := by
  have rest : (c.components.flatMap fun x => x.terminals.flatMap (fun t => (Action.connect t).declared) ++
      (x.laws (Assembly.voltageOf c.nodes)).flatMap (·.declared)) = [] := by
    simp only [List.flatMap_eq_nil_iff, List.append_eq_nil_iff]
    exact fun x _ => ⟨fun _ _ => rfl, List.flatMap_eq_nil_iff.mp (Component.declared_laws x)⟩
  rw [flatMap_actions, rest, List.append_nil]
  exact List.map_eq_flatMap.symm

theorem connected_actions (c : Circuit α) :
    c.actions.flatMap (·.connected) = c.components.flatMap (·.terminals) := by
  have parameters : (c.parameters.flatMap fun p => (Action.parameter p.name p.default).connected) = [] :=
    List.flatMap_eq_nil_iff.mpr fun _ _ => rfl
  rw [flatMap_actions, parameters, List.nil_append]
  simp only [Component.connected_laws, List.append_nil]
  exact List.flatMap_congr fun x _ => List.flatMap_singleton' _

theorem terminals_currents (c : Circuit α) : c.currents.map (·.terminal) = c.components.flatMap (·.terminals) := by
  rw [currents, List.map_flatMap]
  simp only [Component.terminals_currents]

/-! ## The order of the actions -/

omit [Scalar α] in
theorem ordered_parameters (ps : List (Netlist.Parameter α)) :
    Assembly.Ordered (ps.map fun p => Action.parameter p.name p.default) := by
  intro before t v rest split
  have mem : Action.current t v ∈ ps.map fun p => Action.parameter p.name p.default := by simp [split]
  obtain ⟨p, -, ⟨⟩⟩ := List.mem_map.mp mem

/-- The terminals of an element are connected before its laws state their currents. -/
theorem ordered_component (v : Node → Expr α) (x : Component α) : Assembly.Ordered (x.actions v) := by
  intro before t i rest split
  have stated : .current t i ∈ x.laws v := by
    have mem : Action.current t i ∈ x.actions v := by simp [split]
    refine (List.mem_append.mp mem).resolve_left fun mem => ?_
    obtain ⟨t', -, ⟨⟩⟩ := List.mem_map.mp mem
  have own : t ∈ x.terminals := by
    rw [← x.terminals_currents (v := v)]
    exact List.mem_map.mpr ⟨⟨t, some i⟩, List.mem_flatMap.mpr ⟨_, stated, List.mem_cons_self⟩, rfl⟩
  have all {m : List (Action α)} : t ∈ (x.terminals.map Action.connect ++ m).flatMap Action.connected :=
    List.mem_flatMap.mpr ⟨.connect t, List.mem_append_left _ (List.mem_map_of_mem own), List.mem_cons_self⟩
  rcases List.append_eq_append_iff.mp split with ⟨m, rfl, -⟩ | ⟨m, here, there⟩
  · exact all
  · cases m with
    | nil =>
      rw [List.append_nil] at here
      rw [← here, ← List.append_nil (x.terminals.map _)]
      exact all
    | cons action m =>
      obtain ⟨rfl, -⟩ := List.cons_eq_cons.mp there
      have mem : Action.current t i ∈ x.terminals.map Action.connect := by simp [here]
      obtain ⟨t', -, ⟨⟩⟩ := List.mem_map.mp mem

theorem ordered_actions (c : Circuit α) : Assembly.Ordered c.actions :=
  (ordered_parameters _).append (Assembly.Ordered.flatMap fun x _ => ordered_component _ x)

/-! ## Names -/

/-- The names in a circuit keep apart what is called after them: nodes, elements and parameters have names of their own;
only the names of unknowns have brackets; and of the elements with branch currents only transformers may have points in
their names, since the names of theirs get a point more. -/
structure IsWellNamed (c : Circuit α) : Prop where
  nodes : c.nodes.Nodup
  components : (c.components.map (·.name)).Nodup
  parameters : (c.parameters.map (·.name)).Nodup
  brackets : ∀ p ∈ c.parameters, '[' ∉ p.name.toList
  signal : '[' ∉ c.signal.toList
  points : ∀ x ∈ c.components, x.device.kind = .inductor ∨ x.device.kind = .voltageSource → '.' ∉ x.name.toList
  drives : ∀ x ∈ c.components, x.device.DrivenBy c.signal

end Circuit

/-! ## Terminals -/

/-- The last of a mark splits a text in one way. -/
theorem append_cons_inj_of_not_mem {mark : Char} {as bs as' bs' : List Char} (h : mark ∉ bs) (h' : mark ∉ bs')
    (same : as ++ mark :: bs = as' ++ mark :: bs') : as = as' ∧ bs = bs' := by
  rcases List.append_eq_append_iff.mp same with ⟨m, rfl, there⟩ | ⟨m, rfl, there⟩ <;> cases m
  case inl.cons d m | inr.cons d m =>
    obtain ⟨-, rfl⟩ := List.cons_eq_cons.mp there
    simp at h h'
  all_goals
    obtain ⟨-, rfl⟩ := List.cons_eq_cons.mp there
    exact ⟨by simp, rfl⟩

/-- The name of a terminal ends in its pin, and that has no point. -/
theorem Terminal.name_inj {s t : Terminal} (hs : '.' ∉ s.pin.toList) (ht : '.' ∉ t.pin.toList)
    (h : s.name = t.name) : s.element = t.element ∧ s.pin = t.pin := by
  have same : s.element.toList ++ '.' :: s.pin.toList = t.element.toList ++ '.' :: t.pin.toList := by
    have := congrArg String.toList h
    simpa [Terminal.name, String.toList_append] using this
  exact (append_cons_inj_of_not_mem hs ht same).imp String.toList_inj.mp String.toList_inj.mp

theorem Device.pins_names (d : Device α) : (d.pins.map (·.1)).Nodup ∧ ∀ pin ∈ d.pins, '.' ∉ pin.1.toList := by
  cases d <;> simp [pins]

namespace Circuit

/-- What is called after elements is different if each element calls its own differently. -/
theorem nodup_flatMap_components {β : Type} {cs : List (Component α)} {f : Component α → List β}
    (distinct : (cs.map (·.name)).Nodup) (own : ∀ x ∈ cs, (f x).Nodup)
    (apart : ∀ x ∈ cs, ∀ y ∈ cs, ∀ b ∈ f x, b ∈ f y → x.name = y.name) : (cs.flatMap f).Nodup := by
  refine List.nodup_flatMap.mpr ⟨own, ?_⟩
  refine (List.pairwise_map.mp distinct).imp_of_mem fun {x y} hx hy other b first second => ?_
  exact other (apart x hx y hy b first second)

theorem nodup_terminals {c : Circuit α} (h : c.IsWellNamed) :
    ((c.components.flatMap (·.terminals)).map (·.name)).Nodup := by
  have mem {x : Component α} {name : String} (there : name ∈ x.terminals.map (·.name)) :
      ∃ pin ∈ x.device.pins, name = (Terminal.mk x.name pin.1 pin.2).name := by
    obtain ⟨t, ht, rfl⟩ := List.mem_map.mp there
    obtain ⟨pin, hp, rfl⟩ := List.mem_map.mp ht
    exact ⟨pin, hp, rfl⟩
  rw [List.map_flatMap]
  refine nodup_flatMap_components h.components (fun x _ => ?_) fun x _ y _ name hx hy => ?_
  · obtain ⟨distinct, points⟩ := x.device.pins_names
    rw [Component.terminals, List.map_map]
    refine List.pairwise_map.mpr ((List.pairwise_map.mp distinct).imp_of_mem fun {pin pin'} hp hp' other same => ?_)
    exact other (Terminal.name_inj (points pin hp) (points pin' hp') same).2
  · obtain ⟨pin, hpin, rfl⟩ := mem hx
    obtain ⟨pin', hpin', same⟩ := mem hy
    exact (Terminal.name_inj (x.device.pins_names.2 pin hpin) (y.device.pins_names.2 pin' hpin') same).1

/-- A branch current is called after its element, with nothing or with a point and a letter behind the name. -/
theorem mem_branches {x : Component α} {name : String} (h : name ∈ x.branches) :
    ∃ suffix, name = "i[" ++ x.name ++ suffix ++ "]" ∧
      (suffix = "" ∧ (x.device.kind = .inductor ∨ x.device.kind = .voltageSource) ∨
        ∃ letter, suffix.toList = ['.', letter]) := by
  unfold Component.branches at h
  split at h
  · next device => exact ⟨"", by simpa using h, .inl ⟨rfl, .inl (by rw [device]; rfl)⟩⟩
  · next device => exact ⟨"", by simpa using h, .inl ⟨rfl, .inr (by rw [device]; rfl)⟩⟩
  · rcases List.mem_pair.mp h with rfl | rfl
    · exact ⟨".p", by simp [String.append_assoc], .inr ⟨'p', rfl⟩⟩
    · exact ⟨".s", by simp [String.append_assoc], .inr ⟨'s', rfl⟩⟩
  · cases h

theorem nodup_branches (x : Component α) : x.branches.Nodup := by
  unfold Component.branches
  split <;> simp [← String.toList_inj]

/-- Different elements have different branch currents. -/
theorem name_of_branches {c : Circuit α} (h : c.IsWellNamed) {x y : Component α} (hx : x ∈ c.components)
    (hy : y ∈ c.components) {name : String} (first : name ∈ x.branches) (second : name ∈ y.branches) :
    x.name = y.name := by
  obtain ⟨suffix, rfl, own⟩ := mem_branches first
  obtain ⟨suffix', same, own'⟩ := mem_branches second
  have same : x.name.toList ++ suffix.toList = y.name.toList ++ suffix'.toList := by
    simpa [← String.toList_inj, ← List.append_assoc] using same
  rcases own with ⟨rfl, plain⟩ | ⟨letter, dotted⟩ <;> rcases own' with ⟨rfl, plain'⟩ | ⟨letter', dotted'⟩
  · exact String.toList_inj.mp (by simpa using same)
  · refine absurd ?_ (h.points x hx plain)
    rw [← List.append_nil x.name.toList, show [] = "".toList from rfl, same, dotted']
    simp
  · refine absurd ?_ (h.points y hy plain')
    rw [← List.append_nil y.name.toList, show [] = "".toList from rfl, ← same, dotted]
    simp
  · rw [dotted, dotted'] at same
    exact String.toList_inj.mp (List.append_inj' same rfl).1

theorem nodup_unknowns {c : Circuit α} (h : c.IsWellNamed) : c.unknowns.Nodup := by
  have branches : (c.components.flatMap (·.branches)).Nodup :=
    nodup_flatMap_components h.components (fun x _ => nodup_branches x) fun x hx y hy _ => name_of_branches h hx hy
  rw [unknowns, ← List.map_flatMap]
  refine List.nodup_append.mpr ⟨?_, ?_, ?_⟩
  · exact (h.nodes.sublist (List.tail_sublist _)).map Assembly.voltageSymbol_injective
  · exact branches.map fun _ _ => congrArg Symbol.name
  · -- voltages and currents start with different letters
    intro s voltage t current
    rintro rfl
    obtain ⟨node, -, rfl⟩ := List.mem_map.mp voltage
    obtain ⟨name, current, same⟩ := List.mem_map.mp current
    obtain ⟨x, -, current⟩ := List.mem_flatMap.mp current
    obtain ⟨suffix, rfl, -⟩ := mem_branches current
    have same : "i[" ++ x.name ++ suffix ++ "]" = "V[" ++ node ++ "]" := congrArg Symbol.name same
    simp [← String.toList_inj] at same

/-- The names of unknowns have brackets. -/
theorem bracket_of_mem_unknowns {c : Circuit α} {s : Symbol} (h : s ∈ c.unknowns) : '[' ∈ s.name.toList := by
  rcases List.mem_append.mp h with voltage | current
  · obtain ⟨node, -, rfl⟩ := List.mem_map.mp voltage
    simp [Assembly.voltageSymbol, Symbol.named]
  · obtain ⟨x, -, current⟩ := List.mem_flatMap.mp current
    obtain ⟨name, branch, rfl⟩ := List.mem_map.mp current
    obtain ⟨suffix, rfl, -⟩ := mem_branches branch
    simp [Symbol.named]

/-- A driven element is driven by the signal of the circuit. -/
theorem eq_of_mem_signals {c : Circuit α} (h : c.IsWellNamed) {s : Symbol}
    (mem : s ∈ c.components.flatMap (·.signals)) : s = .named c.signal := by
  obtain ⟨x, hx, mem⟩ := List.mem_flatMap.mp mem
  unfold Component.signals at mem
  split at mem
  · next p n v drive device =>
    rw [List.mem_singleton.mp mem, h.drives x hx p n v drive device]
  · cases mem

variable [Scalar α]

/-- What the elements do fits together. -/
theorem compatible_actions {c : Circuit α} (h : c.IsWellNamed) : Assembly.Compatible c.nodes c.actions where
  unknowns := by
    rw [introduced_actions]
    exact nodup_unknowns h
  apart := by
    rw [introduced_actions, signals_actions, declared_actions]
    intro s unknown
    have bracket := bracket_of_mem_unknowns unknown
    constructor
    · intro signal
      rw [eq_of_mem_signals h signal] at bracket
      exact h.signal bracket
    · intro parameter
      rw [knobs, List.map_map] at parameter
      obtain ⟨p, hp, rfl⟩ := List.mem_map.mp parameter
      exact h.brackets p hp bracket
  parameters := by
    rw [declared_actions, knobs, List.map_map]
    exact (List.pairwise_map.mpr <| (List.pairwise_map.mp h.parameters).imp fun other same =>
      other (congrArg Symbol.name same))
  terminals := by
    rw [connected_actions]
    exact nodup_terminals h
  stated := by rw [stated_actions, connected_actions, terminals_currents]
  ordered := ordered_actions c

/-! ## The system -/

/-- The sums of the currents at the nodes other than ground, which are zero. -/
def nodeLaws (c : Circuit α) : List (Equation α) :=
  (List.range c.nodes.length).tail.map fun i =>
    ⟨.mkSum ((c.currents.filter (·.terminal.node == ⟨i⟩)).filterMap (·.current?)), .zero⟩

/-- The system of a circuit in which nothing is amiss. -/
def system (c : Circuit α) : System α :=
  ⟨c.unknowns, c.elementEquations ++ c.nodeLaws,
    (c.components.flatMap (·.signals)).foldl Assembly.declareInput [], c.knobs⟩

theorem length_elementEquations (c : Circuit α) :
    c.elementEquations.length = (c.components.flatMap (·.branches)).length := by
  rw [elementEquations, List.length_flatMap, List.length_flatMap]
  simp only [Component.length_equations]

theorem square_system (c : Circuit α) : c.system.equations.length = c.system.unknowns.length := by
  simp [system, unknowns, nodeLaws, length_elementEquations, List.length_flatMap, Nat.add_comm]

/-- The symbols with a role in the system. -/
def roles (c : Circuit α) : List Symbol :=
  c.system.unknowns ++ c.system.inputs ++ c.system.parameters.map (·.symbol)

/-- The assembly of a circuit holds what the elements contribute. -/
structure Assembled (c : Circuit α) (a : Assembly α) : Prop where
  unknowns : a.unknowns = c.system.unknowns
  equations : a.equations ++ a.nodeEquations = c.system.equations
  inputs : a.inputs = c.system.inputs
  parameters : a.parameters = c.system.parameters
  stated : ∀ x ∈ a.connections, x.current?.isSome = true
  known (s : Symbol) : a.knows s = true ↔ s ∈ c.roles

theorem assembled_of_performAll {c : Circuit α} (h : c.IsWellNamed) {a : Assembly α}
    (done : (Assembly.ofNodes c.nodes).performAll c.actions = (a, none)) : c.Assembled a := by
  have start : (Assembly.ofNodes c.nodes : Assembly α).IsConsistent := Assembly.isConsistent_ofNodes h.nodes
  have grown := Assembly.extends_of_performAll start done
  have consistent := Assembly.isConsistent_performAll start c.actions
  have connections := (compatible_actions h).connections h.nodes done
  rw [done] at consistent
  rw [stated_actions] at connections
  have unknowns : a.unknowns = c.system.unknowns := by rw [grown.unknowns, introduced_actions]; rfl
  have inputs : a.inputs = c.system.inputs := by rw [grown.inputs, signals_actions]; rfl
  have parameters : a.parameters = c.system.parameters := by rw [grown.parameters, declared_actions]; rfl
  refine ⟨unknowns, ?_, inputs, parameters, ?_, fun s => ?_⟩
  · rw [grown.equations, added_actions, Assembly.nodeEquations, grown.nodes]
    unfold Assembly.nodeCurrent
    rw [connections]
    rfl
  · rw [connections, ← stated_actions]
    exact fun x mem => Action.isSome_of_mem_stated mem
  · rw [Assembly.knows, List.contains_iff_mem, consistent.known, unknowns, inputs, parameters]
    rfl

theorem Assembled.square {c : Circuit α} {a : Assembly α} (h : c.Assembled a) :
    (a.equations ++ a.nodeEquations).length = a.unknowns.length := by
  rw [h.equations, h.unknowns]
  exact square_system c

theorem Assembled.system {c : Circuit α} {a : Assembly α} (h : c.Assembled a) :
    (⟨a.unknowns, a.equations ++ a.nodeEquations, a.inputs, a.parameters⟩ : System α) = c.system := by
  rw [h.unknowns, h.equations, h.inputs, h.parameters]

/-- The equations of a circuit are as described, unless the signal of an element is a parameter too or a symbol has no
role. -/
theorem equations_eq_ok_iff {c : Circuit α} (h : c.IsWellNamed) {s : System α} : c.equations = .ok s ↔
    s = c.system ∧ (∀ t ∈ c.components.flatMap (·.signals), t ∉ c.knobs.map (·.symbol)) ∧
      ∀ t ∈ Assembly.symbolsOf c.system.equations, t ∈ c.roles ∨ t = .time := by
  unfold equations
  rcases (compatible_actions h).performAll h.nodes with ⟨a, done⟩ | ⟨a, name, failed, signal, parameter⟩
  · have assembled := assembled_of_performAll h done
    rw [done]
    dsimp only
    have apart : ∀ t ∈ c.components.flatMap (·.signals), t ∉ c.knobs.map (·.symbol) := by
      intro t signal parameter
      rw [← signals_actions] at signal
      rw [← declared_actions] at parameter
      exact Assembly.not_clash_of_performAll h.nodes done t ⟨signal, parameter⟩
    rw [Assembly.finish_eq_ok_iff, assembled.system, and_iff_right apart, and_iff_right assembled.stated,
      and_iff_left assembled.square, assembled.equations]
    simp only [assembled.known]
  · rw [failed]
    rw [signals_actions] at signal
    rw [declared_actions] at parameter
    exact iff_of_false nofun fun h => h.2.1 _ signal parameter

/-- There are no failures but these two. -/
theorem equations_cases {c : Circuit α} (h : c.IsWellNamed) : c.equations = .ok c.system ∨
    (∃ s, c.equations = .error (.undefinedSymbol s)) ∨ ∃ name, c.equations = .error (.duplicateDefinition name) := by
  unfold equations
  rcases (compatible_actions h).performAll h.nodes with ⟨a, done⟩ | ⟨a, name, failed, -⟩
  · have assembled := assembled_of_performAll h done
    have finished := Assembly.finish_of_square assembled.stated assembled.square
    rw [assembled.system] at finished
    rw [done]
    exact finished.imp_right .inl
  · rw [failed]
    exact .inr (.inr ⟨name, rfl⟩)

/-! ## Circuits from texts -/

theorem Denotes.isWellNamed {n : Netlist α} {c : Circuit α} (h : Denotes n c) (names : n.IsWellNamed) :
    c.IsWellNamed where
  nodes := h.nodes ▸ names.nodes
  components := h.names
  parameters := h.parameters ▸ names.parameters
  brackets := h.parameters ▸ names.brackets
  signal := by
    rw [h.signal]
    cases declared : n.inputName? with
    | none => decide
    | some name => exact names.signal name declared
  points := by
    intro x mem branch
    rcases h.mem_components mem with ⟨e, he, built⟩ | ⟨node, -, rfl⟩
    · obtain ⟨name, ends, model?, -, -, built⟩ := componentOf_eq_ok_iff.mp built
      rw [(serves_deviceOf built).kind] at branch
      exact name ▸ names.elements e he branch
    · show '.' ∉ inputSourceName.toList
      decide
  drives := h.drives

theorem isWellNamed_ofText {text : String} {c : Circuit α} (h : ofText text = .ok c) : c.IsWellNamed := by
  obtain ⟨n, read, denotes, -⟩ := ofText_eq_ok_iff.mp h
  exact denotes.isWellNamed (Netlist.isWellNamed_parse read)

/-- The system has as many equations as unknowns, and these are the voltages of the nodes other than ground and the
branch currents of the elements, all of them different. -/
structure IsSquare (c : Circuit α) (system : System α) : Prop where
  square : system.equations.length = system.unknowns.length
  distinct : system.unknowns.Nodup
  unknowns : system.unknowns =
    c.nodes.tail.map Assembly.voltageSymbol ++ c.components.flatMap (·.branches.map .named)

/-- The equations of a circuit from a text are a square system, unless a symbol is undefined or a name has two
definitions. -/
theorem equations_ofText {text : String} {c : Circuit α} (h : ofText text = .ok c) :
    (∃ system, c.equations = .ok system ∧ c.IsSquare system) ∨
      (∃ symbol, c.equations = .error (.undefinedSymbol symbol)) ∨
      ∃ name, c.equations = .error (.duplicateDefinition name) := by
  have names := isWellNamed_ofText h
  refine (equations_cases names).imp_left fun equations => ⟨c.system, equations, ?_⟩
  exact ⟨square_system c, nodup_unknowns names, rfl⟩

/-- The names of the unknowns, if a text denotes a circuit with equations. -/
def unknownNames? (α : Type) [Scalar α] (text : String) : Option (List String) :=
  (ofText (α := α) text).toOption.bind fun c => c.equations.toOption.map fun system => system.unknowns.map (·.name)

theorem unknownNames?_eq_some_iff {text : String} {names : List String} : unknownNames? α text = some names ↔
    ∃ (c : Circuit α) (system : System α), ofText text = .ok c ∧ c.equations = .ok system ∧
      system.unknowns.map (·.name) = names := by
  unfold unknownNames?
  cases ofText (α := α) text with
  | error e => simp [Except.toOption]
  | ok c => cases found : c.equations <;> simp [Except.toOption, found]

/-- An inductor, and a transformer whose name starts with a digit and has a point; no source is given at the input. -/
def coupled : String := "L1 in 0 1m\nXFMR 1.L1 in 0 out 0 2\nR1 out 0 1k\n.input in\n.output out"

/-- The source that is added at the input has a branch current too. -/
theorem equations_coupled : ∃ (c : Circuit ℚ) (system : System ℚ), ofText coupled = .ok c ∧
    c.equations = .ok system ∧ c.IsSquare system ∧
    system.unknowns.map (·.name) = ["V[in]", "V[out]", "i[L1]", "i[1.L1.p]", "i[1.L1.s]", "i[V_input]"] := by
  obtain ⟨c, system, read, found, names⟩ := unknownNames?_eq_some_iff.mp <| show unknownNames? ℚ coupled =
    some ["V[in]", "V[out]", "i[L1]", "i[1.L1.p]", "i[1.L1.s]", "i[V_input]"] by decide +kernel
  rcases equations_ofText read with ⟨system', found', square⟩ | ⟨s, failed⟩ | ⟨s, failed⟩
  · obtain rfl := Except.ok.inj (found'.symm.trans found)
    exact ⟨c, system', read, found, square, names⟩
  · cases failed.symm.trans found
  · cases failed.symm.trans found

end Circuit

end AnalogCircuit
