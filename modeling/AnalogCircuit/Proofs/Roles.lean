import AnalogCircuit.Proofs.Balanced
import AnalogCircuit.Proofs.Ports
import AnalogCircuit.Proofs.Sequence
import AnalogCircuit.Proofs.Square
/-!
# The roles of symbols

In the equations of a circuit from a text no symbol has two roles: unknowns have brackets in their names, and what an
assembly knows already it does not take for an input or a parameter. Only the time is not known to it. A parameter may
be called `t`, and so may the input signal; the time of the sample then takes the place of the symbol in all equations,
and nothing reads what is declared. When neither is called so, a program has a register of its own for every quantity,
now and one sample earlier.
-/

namespace AnalogCircuit

variable {α : Type}

/-! ## What the fixed registers hold -/

/-- The symbols that have a role in a system. -/
def System.roles (system : System α) : List Symbol :=
  system.unknowns ++ system.inputs ++ system.parameters.map (·.symbol)

/-- The symbols that have a role in a law. -/
def UpdateLaw.roles (law : UpdateLaw α) : List Symbol :=
  law.unknowns ++ law.inputs ++ law.parameters.map (·.symbol)

/-- The quantities of a law in the order of the registers that are fixed for them. -/
def UpdateLaw.quantities (law : UpdateLaw α) : List Symbol :=
  law.unknowns.map (·.previous) ++ (law.inputs ++ (law.inputs.map (·.previous) ++
    (law.parameters.map (·.symbol) ++ ([.previousTime] ++ law.unknowns))))

theorem getElem?_append_eq_some_iff {β : Type} {l l' : List β} {r : Nat} {x : β} :
    (l ++ l')[r]? = some x ↔ l[r]? = some x ∨ ∃ i, l'[i]? = some x ∧ l.length + i = r := by
  rcases Nat.lt_or_ge r l.length with inside | behind
  · rw [List.getElem?_append_left inside]
    refine ⟨.inl, fun h => h.resolve_right ?_⟩
    rintro ⟨i, -, rfl⟩
    exact absurd inside (Nat.not_lt.mpr (Nat.le_add_right _ _))
  · rw [List.getElem?_append_right behind, List.getElem?_eq_none behind]
    constructor
    · exact fun h => .inr ⟨_, h, Nat.add_sub_of_le behind⟩
    · rintro (⟨⟨⟩⟩ | ⟨i, h, rfl⟩)
      rwa [Nat.add_sub_cancel_left]

namespace Program

variable {law : UpdateLaw α}

theorem length_quantities : law.quantities.length = (layoutOf law).size := by
  simp only [UpdateLaw.quantities, List.length_append, List.length_map, List.length_singleton]
  change _ = law.unknowns.length + 2 * law.inputs.length + law.parameters.length + 1 + law.unknowns.length
  omega

/-- The table leads from every quantity to its register, and to no other. -/
theorem mem_symbolTable_iff (current : ∀ s ∈ law.unknowns ++ law.inputs, s.current = s) {x : Symbol} {r : Reg} :
    (x, r) ∈ symbolTable law ↔ law.quantities[r]? = some x := by
  have unknown {i : Nat} {u : Symbol} (h : law.unknowns[i]? = some u) : u.current = u :=
    current u (List.mem_append_left _ (List.mem_of_getElem? h))
  have input {i : Nat} {v : Symbol} (h : law.inputs[i]? = some v) : v.current = v :=
    current v (List.mem_append_right _ (List.mem_of_getElem? h))
  have only {i : Nat} : [Symbol.previousTime][i]? = some x ↔ i = 0 ∧ x = .previousTime := by
    cases i <;> simp [eq_comm]
  rw [mem_symbolTable]
  -- what is left is one case for each group of registers, and arithmetic on where the groups begin
  simp only [UpdateLaw.quantities, getElem?_append_eq_some_iff, List.getElem?_map, Option.map_eq_some_iff, only,
    List.length_map, List.length_singleton, or_and_right, exists_or, exists_exists_and_eq_and, layoutOf,
    Layout.unknown, Layout.previousUnknown, Layout.input, Layout.previousInput, Layout.parameter, Layout.previousTime]
  constructor
  · rintro (⟨u, i, h, ⟨rfl, rfl⟩ | ⟨rfl, rfl⟩⟩ | ⟨v, i, h, ⟨rfl, rfl⟩ | ⟨rfl, rfl⟩⟩ | ⟨p, i, h, rfl, rfl⟩ | ⟨rfl, rfl⟩)
    · exact .inr (.inr (.inr (.inr (.inr ⟨i, (unknown h).symm ▸ h, by omega⟩))))
    · exact .inl ⟨u, h, rfl⟩
    · exact .inr (.inl ⟨i, (input h).symm ▸ h, rfl⟩)
    · exact .inr (.inr (.inl ⟨i, ⟨v, h, rfl⟩, by omega⟩))
    · exact .inr (.inr (.inr (.inl ⟨i, ⟨p, h, rfl⟩, by omega⟩)))
    · exact .inr (.inr (.inr (.inr (.inl ⟨0, ⟨rfl, rfl⟩, by omega⟩))))
  · rintro (⟨u, h, rfl⟩ | ⟨i, h, rfl⟩ | ⟨i, ⟨v, h, rfl⟩, rfl⟩ | ⟨i, ⟨p, h, rfl⟩, rfl⟩ | ⟨i, ⟨rfl, rfl⟩, rfl⟩ |
      ⟨i, h, rfl⟩)
    · exact .inl ⟨u, r, h, .inr ⟨rfl, rfl⟩⟩
    · exact .inr (.inl ⟨x, i, h, .inl ⟨(input h).symm, rfl⟩⟩)
    · exact .inr (.inl ⟨v, i, h, .inr ⟨rfl, by change (_ : Nat) = _; omega⟩⟩)
    · exact .inr (.inr (.inl ⟨p, i, h, rfl, by change (_ : Nat) = _; omega⟩))
    · exact .inr (.inr (.inr ⟨rfl, by change (_ : Nat) = _; omega⟩))
    · exact .inl ⟨x, i, h, .inl ⟨(unknown h).symm, by change (_ : Nat) = _; omega⟩⟩

/-- The previous time has its register, whatever else is called so. -/
theorem registerOf_previousTime : registerOf law .previousTime = some (layoutOf law).previousTime := by
  unfold registerOf symbolTable
  rw [List.reverse_append, List.reverse_singleton, List.singleton_append, List.lookup_cons, beq_self_eq_true]

/-- If the quantities are different, each has its own register. -/
theorem registerOf_eq_some_iff (current : ∀ s ∈ law.unknowns ++ law.inputs, s.current = s)
    (distinct : law.quantities.Nodup) {x : Symbol} {r : Reg} :
    registerOf law x = some r ↔ law.quantities[r]? = some x := by
  refine ⟨fun h => (mem_symbolTable_iff current).mp (mem_of_registerOf h), fun h => ?_⟩
  have entry := (mem_symbolTable_iff current).mpr h
  obtain ⟨r', found⟩ := Option.isSome_iff_exists.mp (List.lookup_isSome_iff.mpr ⟨_, entry, beq_self_eq_true x⟩)
  have other := (mem_symbolTable_iff current).mp (mem_of_registerOf found)
  have inside := (List.getElem?_eq_some_iff.mp h).1
  obtain rfl := (List.getElem?_inj inside distinct).mp (h.trans other.symm)
  exact found

/-- If names are different and the time has none of them, the quantities are different. -/
theorem nodup_quantities (distinct : (Symbol.time.name :: law.roles.map (·.name)).Nodup)
    (current : ∀ s ∈ law.roles, s.sample = .current) : law.quantities.Nodup := by
  obtain ⟨time, names⟩ := List.nodup_cons.mp distinct
  let past := law.unknowns ++ law.inputs ++ [Symbol.time]
  have perm : law.quantities.Perm (past.map (·.previous) ++ law.roles) := by
    refine List.perm_iff_count.mpr fun s => ?_
    simp only [UpdateLaw.quantities, UpdateLaw.roles, past, List.map_append, List.count_append, List.map_singleton,
      Symbol.previousTime]
    omega
  refine perm.nodup_iff.mpr (List.nodup_append.mpr ⟨?_, names.of_map, ?_⟩)
  · -- a previous symbol has the name of the current one
    refine List.Nodup.of_map (·.name) ?_
    rw [List.map_map, List.map_append, List.map_singleton]
    refine List.nodup_append.mpr ⟨?_, List.nodup_singleton _, ?_⟩
    · rw [UpdateLaw.roles, List.map_append] at names
      exact (List.nodup_append.mp names).1
    · intro name there name' here same
      obtain rfl : name' = Symbol.time.name := List.mem_singleton.mp here
      rw [UpdateLaw.roles, List.map_append, List.mem_append] at time
      exact time (.inl (same ▸ there))
  · rintro s past s' role rfl
    obtain ⟨t, -, rfl⟩ := List.mem_map.mp past
    cases current _ role

end Program

/-! ## Systems whose symbols are apart -/

/-- No stage on the way to a program confuses two symbols of a system, or one with the time. -/
structure System.KeepsApart [Scalar α] (system : System α) : Prop where
  /-- Whatever takes the place of the time, the symbols with a role stay. -/
  kept (now : Expr α) : ∀ s ∈ system.roles, (Expr.sym s).replace .time now = .sym s ∧
    (Expr.sym s.previous).replace .time now = .sym s.previous
  /-- Discretization adds unknowns that are new. -/
  discretized (step : α) : system.IsDiscretization step system.timeStates (system.discretize step)
  /-- The unknowns, the inputs and the parameters of a program, what the first two were one sample earlier, and the time
  of that sample are different quantities. -/
  quantities {rate : α} {law : UpdateLaw α} : UpdateLaw.ofSystem system rate = .ok law → law.quantities.Nodup
  /-- Each of them has a fixed register, and no two have the same. -/
  registers {rate tolerance : α} {law : UpdateLaw α} {p : Program α} : UpdateLaw.ofSystem system rate = .ok law →
    Program.ofLaw law tolerance = .ok p → p.layout.size = law.quantities.length ∧
      ∀ x r, Program.registerOf law x = some r ↔ law.quantities[r]? = some x

variable [Scalar α] [Std.LawfulEqCmp (Scalar.order (α := α))]

/-- The symbols with a role in the law of a system are those of the system and the new unknowns. -/
theorem UpdateLaw.roles_perm {system : System α} {rate : α} {law : UpdateLaw α}
    (h : UpdateLaw.ofSystem system rate = .ok law) :
    law.roles.Perm (system.roles ++ system.timeStates.map (·.unknown)) := by
  obtain ⟨p, -, unknowns, inputs, parameters, -⟩ := ofSystem_eq_ok h
  rw [System.discretize_eq] at unknowns
  refine List.perm_iff_count.mpr fun s => ?_
  simp only [UpdateLaw.roles, System.roles, unknowns, inputs, parameters, List.count_append]
  omega

theorem System.keepsApart {system : System α} (distinct : (Symbol.time.name :: system.names).Nodup)
    (current : ∀ s ∈ system.roles, s.sample = .current) : system.KeepsApart := by
  have names : system.names = system.roles.map (·.name) := rfl
  have other {s : Symbol} (role : s ∈ system.roles) : s.name ≠ Symbol.time.name := by
    intro same
    rw [names] at distinct
    exact (List.nodup_cons.mp distinct).1 (same ▸ List.mem_map_of_mem role)
  have apart {rate : α} {law : UpdateLaw α} (h : UpdateLaw.ofSystem system rate = .ok law) :
      law.quantities.Nodup ∧ ∀ s ∈ law.unknowns ++ law.inputs, s.current = s := by
    have perm := UpdateLaw.roles_perm h
    have samples : ∀ s ∈ law.roles, s.sample = .current := by
      intro s role
      rcases List.mem_append.mp (perm.mem_iff.mp role) with role | state
      · exact current s role
      · obtain ⟨t, mem, rfl⟩ := List.mem_map.mp state
        rw [(isDiscretization_discretize distinct (1 / rate)).current t mem]
        rfl
    refine ⟨Program.nodup_quantities ?_ samples, fun s mem => ?_⟩
    · have all := nodup_names_timeStates distinct
      rw [names, show (fun s : TimeState α => s.unknown.name) = (·.name) ∘ (·.unknown) from rfl, ← List.map_map,
        ← List.map_append] at all
      exact ((perm.map _).cons _).nodup_iff.mpr all
    · rw [Symbol.current, ← samples s (List.mem_append_left _ mem)]
  constructor
  case kept =>
    intro now s role
    have kept (t : Symbol) (name : t.name ≠ Symbol.time.name) : (Expr.sym t).replace .time now = .sym t := by
      rw [Expr.replace_eq, Expr.rewrite_sym, Expr.image_replace, if_neg (ne_of_apply_ne Symbol.name name)]
    exact ⟨kept s (other role), kept s.previous (show s.name ≠ _ from other role)⟩
  case discretized => exact isDiscretization_discretize distinct
  case quantities => exact fun h => (apart h).1
  case registers =>
    intro rate tolerance law p h compiled
    obtain ⟨distinct, current⟩ := apart h
    refine ⟨?_, fun x r => Program.registerOf_eq_some_iff current distinct⟩
    obtain ⟨_, -, built⟩ := exists_of_bind_eq_ok compiled
    cases built
    exact Program.length_quantities.symm

/-! ## Circuits from texts -/

namespace Circuit

/-- What the roles of symbols in the system of a circuit are. -/
structure HasRoles (c : Circuit α) (system : System α) : Prop where
  /-- No symbol has two roles. -/
  distinct : system.roles.Nodup
  current : ∀ s ∈ system.roles, s.sample = .current
  unknown : .time ∉ system.unknowns
  /-- The time is an input only if the driving signal is called so. -/
  input : .time ∈ system.inputs ↔ c.inputName? = some Symbol.time.name
  /-- The time is a parameter only if one is called so. -/
  parameter : .time ∈ system.parameters.map (·.symbol) ↔ ∃ p ∈ c.parameters, p.name = Symbol.time.name
  /-- If the time has no role, no symbol is confused with another one or with the time. -/
  apart : .time ∉ system.roles → system.KeepsApart

omit [Scalar α] [Std.LawfulEqCmp (Scalar.order (α := α))] in
/-- The signal of a driven element is the input. -/
theorem inputName?_of_mem_signals {c : Circuit α} (h : c.IsWellNamed) {s : Symbol}
    (mem : s ∈ c.components.flatMap (·.signals)) : c.inputName? = some s.name := by
  obtain ⟨x, hx, signal⟩ := List.mem_flatMap.mp mem
  have driven : x.device.isDriven = true := by
    unfold Component.signals at signal
    split at signal
    · next device => rw [device]; rfl
    · cases signal
  have found : (c.components.findIdx? (·.device.isDriven)).isSome = true := by
    rw [List.findIdx?_isSome]
    exact List.any_eq_true.mpr ⟨x, hx, driven⟩
  obtain ⟨i, found⟩ := Option.isSome_iff_exists.mp found
  rw [inputName?, inputSource?, found, eq_of_mem_signals h mem]
  rfl

omit [Std.LawfulEqCmp (Scalar.order (α := α))] in
/-- An assembly keeps the roles apart, and leaves them in the system. -/
theorem nodup_roles {c : Circuit α} (h : c.IsWellNamed) {system : System α} (found : c.equations = .ok system) :
    system.roles.Nodup := by
  obtain ⟨assembly, performed, finished⟩ := exists_of_equations found
  have consistent := Assembly.isConsistent_performAll (Assembly.isConsistent_ofNodes h.nodes) c.actions
  rw [performed] at consistent
  rw [(Assembly.finish_eq_ok_iff.mp finished).1]
  exact consistent.roles

omit [Std.LawfulEqCmp (Scalar.order (α := α))] in
/-- All roles are those of symbols of the current sample. -/
theorem eq_named_of_mem_roles {c : Circuit α} (h : c.IsWellNamed) {s : Symbol} (role : s ∈ c.system.roles) :
    s = .named s.name := by
  simp only [System.roles, List.mem_append] at role
  rcases role with (unknown | input) | parameter
  · rcases List.mem_append.mp unknown with voltage | current
    · obtain ⟨node, -, rfl⟩ := List.mem_map.mp voltage
      rfl
    · obtain ⟨x, -, current⟩ := List.mem_flatMap.mp current
      obtain ⟨name, -, rfl⟩ := List.mem_map.mp current
      rfl
  · have signal := (Assembly.mem_foldl_declareInput.mp input).resolve_left List.not_mem_nil
    rw [eq_of_mem_signals h signal]
    rfl
  · obtain ⟨p, mem, rfl⟩ := List.mem_map.mp parameter
    obtain ⟨q, -, rfl⟩ := List.mem_map.mp mem
    rfl

/-- Whatever the netlist, the roles of symbols are apart, but for what is called like the time. -/
theorem hasRoles_ofText {text : String} {c : Circuit α} {system : System α} (read : ofText text = .ok c)
    (found : c.equations = .ok system) : c.HasRoles system := by
  have names := isWellNamed_ofText read
  have distinct := nodup_roles names found
  obtain ⟨same, -⟩ := (equations_eq_ok_iff names).mp found
  have named : ∀ s ∈ system.roles, s = .named s.name := fun s role => eq_named_of_mem_roles names (same ▸ role)
  have current : ∀ s ∈ system.roles, s.sample = .current := fun s role => by rw [named s role]; rfl
  have signal : .time ∈ system.inputs → .time ∈ c.components.flatMap (·.signals) := by
    rw [same]
    exact fun mem => (Assembly.mem_foldl_declareInput.mp mem).resolve_left List.not_mem_nil
  constructor
  case distinct => exact distinct
  case current => exact current
  case unknown =>
    rw [same]
    exact fun mem => absurd (bracket_of_mem_unknowns mem) (by decide)
  case input =>
    exact ⟨fun mem => inputName?_of_mem_signals names (signal mem), inputName_mem_inputs (hasPorts_ofText read) found⟩
  case parameter =>
    rw [same]
    simp [Circuit.system, knobs, Symbol.time, Symbol.named]
  case apart =>
    intro absent
    refine System.keepsApart (List.nodup_cons.mpr ⟨fun mem => ?_, ?_⟩) current
    · obtain ⟨s, role, name⟩ := List.mem_map.mp mem
      rw [named s role, name] at role
      exact absent role
    · refine distinct.map_on fun s role s' role' name => ?_
      rw [named s role, named s' role', name]

/-- The system of the circuit that a text denotes. -/
def systemOf? (α : Type) [Scalar α] (text : String) : Option (System α) :=
  (ofText (α := α) text).toOption.bind (·.equations.toOption)

omit [Std.LawfulEqCmp (Scalar.order (α := α))] in
theorem systemOf?_eq_some_iff {text : String} {system : System α} : systemOf? α text = some system ↔
    ∃ c, ofText text = .ok c ∧ c.equations = .ok system := by
  unfold systemOf?
  cases ofText (α := α) text with
  | error e => simp [Except.toOption]
  | ok c => cases found : c.equations <;> simp [Except.toOption, found]

/-- A divider of a named signal, with a parameter. -/
def guitarDivider : String := ".input in guitar\n.output out\n.param tone 0.5\nR1 in out 10k\nR2 out 0 1k"

theorem hasRoles_guitarDivider : ∃ (c : Circuit ℚ) (system : System ℚ), ofText guitarDivider = .ok c ∧
    c.equations = .ok system ∧ c.HasRoles system ∧ system.KeepsApart ∧
      system.roles.map (·.name) = ["V[in]", "V[out]", "i[V_input]", "guitar", "tone"] := by
  have names : (systemOf? ℚ guitarDivider).map (fun system => system.roles.map (·.name)) =
      some ["V[in]", "V[out]", "i[V_input]", "guitar", "tone"] := by decide +kernel
  obtain ⟨system, solved, roles⟩ := Option.map_eq_some_iff.mp names
  obtain ⟨c, read, found⟩ := systemOf?_eq_some_iff.mp solved
  have has := hasRoles_ofText read found
  refine ⟨c, system, read, found, has, has.apart fun mem => ?_, roles⟩
  have mem := List.mem_map_of_mem (f := (·.name)) mem
  rw [roles] at mem
  exact absurd mem (by decide)

/-- A divider of a signal that is called like the time. -/
def timedDivider : String := ".input in t\n.output out\nR1 in out 10k\nR2 out 0 1k"

/-- The time is an input, the equations read it, and the equations between samples do not: the time of the sample is in
its place. Its previous value has the register of the previous time, not one of its own. -/
theorem time_mem_inputs_timedDivider : ∃ (c : Circuit ℚ) (system : System ℚ), ofText timedDivider = .ok c ∧
    c.equations = .ok system ∧ .time ∈ system.inputs ∧
      (∃ q ∈ system.equations, q.lhs.contains .time = true ∨ q.rhs.contains .time = true) ∧
      (∀ step, ∀ q ∈ (system.discretize step).equations,
        q.lhs.contains .time = false ∧ q.rhs.contains .time = false) ∧
      ∀ rate law, UpdateLaw.ofSystem system rate = .ok law →
        Program.registerOf law Symbol.time.previous = some (Program.layoutOf law).previousTime := by
  have clash : (systemOf? ℚ timedDivider).any (fun system => system.inputs.contains .time &&
      system.equations.any fun q => q.lhs.contains .time || q.rhs.contains .time) = true := by decide +kernel
  obtain ⟨system, solved, clash⟩ := (Option.any_eq_true ..).mp clash
  obtain ⟨c, read, found⟩ := systemOf?_eq_some_iff.mp solved
  rw [Bool.and_eq_true, List.contains_iff_mem, List.any_eq_true] at clash
  obtain ⟨input, q, hq, reads⟩ := clash
  refine ⟨c, system, read, found, input, ⟨q, hq, Bool.or_eq_true _ _ ▸ reads⟩, fun step q hq => ?_, ?_⟩
  · obtain ⟨left, right⟩ := system.isTimeless_discretize q hq
    exact ⟨left.time, right.time⟩
  · exact fun rate law _ => Program.registerOf_previousTime

end Circuit

end AnalogCircuit
