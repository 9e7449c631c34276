import AnalogCircuit.Proofs.Assembly
import AnalogCircuit.Proofs.LinearStep
import AnalogCircuit.Circuit.Basic
/-!
# Linear circuits

Without diodes and transistors, and with values that are functions of parameters and the time, every action of a
component adds a linear current or a linear equation. So the system of the circuit is linear, and a step of its
program leaves voltages and currents that satisfy the law of every node and of every branch.
-/

namespace AnalogCircuit

variable {α : Type}

/-! ## Values of elements -/

/-- The expression can be computed from given symbols. -/
def Expr.isSteady [Scalar α] (given : Symbol → Bool) (e : Expr α) : Bool :=
  isComputable false e && !e.dependsOn (!given ·)

/-- The expressions that give a device its values. -/
def Device.values : Device α → List (Expr α)
  | resistor _ _ v | capacitor _ _ v | inductor _ _ v | currentSource _ _ v | transformer _ _ _ _ v => [v]
  | voltageSource _ _ v drive? => v :: drive?.toList.map (·.gain)
  | potentiometer _ _ _ track => [track.total, track.position]
  | diode .. | transistor .. | amplifier .. => []

namespace Circuit

/-- The symbol is a parameter of the circuit or the time. -/
def isGiven (c : Circuit α) (s : Symbol) : Bool :=
  c.parameters.any (Symbol.named ·.name == s) || s == .time

/-- All values of all components are functions of parameters and the time. -/
def isSteady [Scalar α] (c : Circuit α) : Bool :=
  c.components.all fun component => component.device.values.all (·.isSteady c.isGiven)

end Circuit

open Expr

variable [ExactScalar α] {U given : Symbol → Bool}

/-- Where given symbols are known, steady values are. -/
theorem Expr.isKnown_of_isSteady (known : ∀ s, given s = true → U s = false) {e : Expr α}
    (h : e.isSteady given = true) : IsKnown U e := by
  unfold isSteady at h
  rw [Bool.and_eq_true, Bool.not_eq_true'] at h
  obtain ⟨computable, free⟩ := h
  refine ⟨dependsOn_eq_false_iff.mpr fun s hs => known s ?_, computable⟩
  simpa using dependsOn_eq_false_iff.mp free s hs

/-- The derivative of a linear expression is linear where derivatives are allowed. -/
theorem Expr.isLinear_mkDerivative {x : Expr α} (h : Expr.IsLinear U true x) :
    Expr.IsLinear U true (mkDerivative x .time) := by
  unfold mkDerivative
  split
  · exact isLinear_num 0
  · exact .derivative rfl h

namespace Potentiometer

theorem isKnown_limit {f : Builtin} (hf : f ≠ .pow) {e : Expr α} (h : IsKnown U e) (v : α) :
    IsKnown U (mkCall f [e, mkNum v]) := by
  have known := hereditary_isKnown (α := α) U
  have args : ∀ a ∈ [e, mkNum v], IsKnown U a := by
    rw [mkNum_eq]
    exact List.forall_mem_cons.mpr ⟨h, List.forall_mem_singleton.mpr (known.num v)⟩
  refine known.mkCall hf ⟨dependsOnList_eq_false_iff.mpr fun a ha => (args a ha).free, ?_⟩
  exact isComputable_call.mpr ⟨hf, fun a ha => (args a ha).computable⟩

/-- Both halves of a track with known values are known. -/
theorem isKnown_halves {track : Potentiometer α} (total : IsKnown U track.total)
    (position : IsKnown U track.position) : IsKnown U track.upper ∧ IsKnown U track.lower := by
  have known := hereditary_isKnown (α := α) U
  have unit : IsKnown U (mkNum 1 : Expr α) := by
    rw [mkNum_eq]
    exact known.num 1
  have larger : Builtin.max ≠ .pow := by decide
  constructor
  · exact isKnown_limit larger (known.mul position total) floor
  · exact isKnown_limit larger (known.mul (known.sub unit position) total) floor

end Potentiometer

/-! ## Actions of components -/

/-- The action adds no current and no equation but linear ones, and no unknown is the time. -/
def Action.IsLinear (unknown : Symbol → Bool) : Action α → Prop
  | .unknown name => name ≠ "t"
  | .current _ value => Expr.IsLinear unknown true value
  | .equation lhs rhs => Expr.IsLinear unknown true lhs ∧ Expr.IsLinear unknown true rhs
  | .input _ | .parameter _ _ | .connect _ => True

namespace Component

theorem isLinear_through {name : String} {a b : String × Node} {i : Expr α}
    (h : Expr.IsLinear U true i) : ∀ action ∈ through name a b i, action.IsLinear U := by
  refine List.forall_mem_cons.mpr ⟨h, List.forall_mem_singleton.mpr ?_⟩
  exact isLinear_neg h

/-- The name of a branch current is not that of the time. -/
theorem branch_ne_time {name suffix : String} : "i[" ++ name ++ suffix ++ "]" ≠ "t" := by
  intro same
  have := congrArg String.length same
  simp only [String.length_append, show "i[".length = 2 from rfl, show "t".length = 1 from rfl] at this
  omega

/-- With linear voltages and steady values, the laws of a linear component are linear. -/
theorem isLinear_laws {v : Node → Expr α} (voltages : ∀ n, Expr.IsLinear U true (v n))
    (known : ∀ s, given s = true → U s = false) {c : Component α} (linear : c.device.isNonlinear = false)
    (steady : ∀ e ∈ c.device.values, e.isSteady given = true) :
    ∀ action ∈ c.laws v, action.IsLinear U := by
  have values : ∀ e ∈ c.device.values, IsKnown U e := fun e he =>
    isKnown_of_isSteady known (steady e he)
  have number (x : α) : IsKnown U (mkNum x) := by
    rw [mkNum_eq]
    exact (hereditary_isKnown U).num x
  have between (a b : Node) : Expr.IsLinear U true (v a - v b) :=
    isLinear_sub (voltages a) (voltages b)
  obtain ⟨name, device⟩ := c
  cases device with
  | resistor a b r =>
    exact isLinear_through (isLinear_div (between a b) (values r List.mem_cons_self))
  | capacitor a b k =>
    have rate := isLinear_mkDerivative (between a b)
    exact isLinear_through (isLinear_mul (values k List.mem_cons_self) rate)
  | inductor a b l =>
    have rate (i : Symbol) : Expr.IsLinear U true (mkDerivative (sym i : Expr α) .time) :=
      isLinear_mkDerivative (.sym i)
    refine List.forall_mem_cons.mpr ⟨branch_ne_time, List.forall_mem_append.mpr ⟨?_, ?_⟩⟩
    · exact isLinear_through (.sym _)
    · exact List.forall_mem_singleton.mpr ⟨between a b, isLinear_mul (values l List.mem_cons_self) (rate _)⟩
  | voltageSource p n e drive? =>
    have constant : Expr.IsLinear U true e := .known (values e List.mem_cons_self)
    refine List.forall_mem_cons.mpr ⟨branch_ne_time, List.forall_mem_append.mpr ⟨?_, ?_⟩⟩
    · exact isLinear_through (.sym _)
    · cases drive? with
      | none => exact List.forall_mem_singleton.mpr ⟨between p n, constant⟩
      | some d =>
        have gain : IsKnown U d.gain := values d.gain (List.mem_cons_of_mem _ List.mem_cons_self)
        refine List.forall_mem_cons.mpr ⟨trivial, List.forall_mem_singleton.mpr ⟨between p n, ?_⟩⟩
        exact isLinear_add constant (isLinear_mul gain (.sym _))
  | currentSource p n i => exact isLinear_through (.known (values i List.mem_cons_self))
  | diode a k law => cases linear
  | transistor k b e law => cases linear
  | amplifier out p n law =>
    refine List.forall_mem_cons.mpr ⟨?_, isLinear_through ?_⟩
    · have gained := isLinear_mul (number law.gain) (between p n)
      exact isLinear_div (isLinear_sub (voltages out) gained) (number _)
    · exact isLinear_div (between p n) (number _)
  | potentiometer a w b track =>
    obtain ⟨upper, lower⟩ := Potentiometer.isKnown_halves (values track.total List.mem_cons_self)
      (values track.position (List.mem_cons_of_mem _ List.mem_cons_self))
    have i₁ := isLinear_div (between a w) upper
    have i₂ := isLinear_div (between w b) lower
    refine List.forall_mem_cons.mpr ⟨i₁, List.forall_mem_cons.mpr ⟨isLinear_sub i₂ i₁, ?_⟩⟩
    exact List.forall_mem_singleton.mpr (isLinear_neg i₂)
  | transformer pa pc sa sc turns =>
    have ratio := values turns List.mem_cons_self
    refine List.forall_mem_cons.mpr ⟨branch_ne_time, List.forall_mem_append.mpr ⟨?_, ?_⟩⟩
    · exact isLinear_through (.sym _)
    refine List.forall_mem_cons.mpr ⟨branch_ne_time, List.forall_mem_cons.mpr ⟨?_, ?_⟩⟩
    · exact isLinear_neg (.sym _)
    refine List.forall_mem_cons.mpr ⟨.sym _, List.forall_mem_cons.mpr ⟨?_, ?_⟩⟩
    · exact ⟨isLinear_mul_known (.sym _) ratio, .sym _⟩
    · exact List.forall_mem_singleton.mpr ⟨between pa pc, isLinear_mul ratio (between sa sc)⟩

theorem isLinear_actions {v : Node → Expr α} (voltages : ∀ n, Expr.IsLinear U true (v n))
    (known : ∀ s, given s = true → U s = false) {c : Component α} (linear : c.device.isNonlinear = false)
    (steady : ∀ e ∈ c.device.values, e.isSteady given = true) :
    ∀ action ∈ c.actions v, action.IsLinear U := by
  refine List.forall_mem_append.mpr ⟨?_, isLinear_laws voltages known linear steady⟩
  exact List.forall_mem_map.mpr fun _ _ => trivial

end Component

/-! ## Linear assemblies -/

namespace Assembly

/-- All currents and equations are linear, unknowns and inputs belong to the current sample, and an unknown has no
other role. -/
structure IsLinear (unknown : Symbol → Bool) (a : Assembly α) : Prop where
  equations : ∀ q ∈ a.equations, Expr.IsLinear unknown true q.lhs ∧ Expr.IsLinear unknown true q.rhs
  currents : ∀ c ∈ a.connections, ∀ i, c.current? = some i → Expr.IsLinear unknown true i
  current : ∀ s ∈ a.unknowns ++ a.inputs, s.current = s
  time : Symbol.time ∉ a.unknowns
  inputs : ∀ u ∈ a.unknowns, u ∉ a.inputs
  parameters : ∀ u ∈ a.unknowns, a.parameters.any (·.symbol == u) = false

/-- Voltages alone are a linear assembly. -/
theorem isLinear_ofNodes (nodes : List String) : IsLinear U (ofNodes nodes : Assembly α) where
  equations := fun _ h => absurd h List.not_mem_nil
  currents := fun _ h => absurd h List.not_mem_nil
  current := by
    intro s hs
    rw [show (ofNodes nodes : Assembly α).inputs = [] from rfl, List.append_nil] at hs
    obtain ⟨node, -, rfl⟩ := List.mem_map.mp hs
    rfl
  time := by
    intro mem
    obtain ⟨node, -, same⟩ := List.mem_map.mp mem
    have := congrArg (·.name.length) same
    simp only [voltageSymbol, Symbol.named, Symbol.time, String.length_append,
      show "V[".length = 2 from rfl, show "t".length = 1 from rfl] at this
    omega
  inputs := fun _ _ h => absurd h List.not_mem_nil
  parameters := fun _ _ => rfl

/-- A linear action keeps an assembly linear. -/
theorem IsLinear.perform {a a' : Assembly α} {action : Action α} (h : IsLinear U a) (known : a.KnowsRoles)
    (linear : action.IsLinear U) (performed : Performed a action a') : IsLinear U a' := by
  cases performed with
  | @unknown name new =>
    obtain ⟨-, input, parameter⟩ := known.knows_eq_false_iff.mp new
    refine { h with current := fun s hs => ?_, time := fun mem => ?_, inputs := ?_, parameters := ?_ }
    · rw [List.append_assoc, List.mem_append, List.mem_append, List.mem_singleton] at hs
      rcases hs with hs | rfl | hs
      · exact h.current s (List.mem_append_left _ hs)
      · rfl
      · exact h.current s (List.mem_append_right _ hs)
    · rcases List.mem_append.mp mem with mem | mem
      · exact h.time mem
      · exact linear (congrArg Symbol.name (List.mem_singleton.mp mem)).symm
    · exact List.forall_mem_append.mpr ⟨h.inputs, List.forall_mem_singleton.mpr input⟩
    · exact List.forall_mem_append.mpr ⟨h.parameters, List.forall_mem_singleton.mpr parameter⟩
  | @input name new =>
    obtain ⟨unknown, -⟩ := known.knows_eq_false_iff.mp new
    refine { h with current := fun s hs => ?_, inputs := fun u hu mem => ?_ }
    · rw [← List.append_assoc] at hs
      rcases List.mem_append.mp hs with hs | hs
      · exact h.current s hs
      · rw [List.mem_singleton.mp hs]; rfl
    · rcases List.mem_append.mp mem with mem | mem
      · exact h.inputs u hu mem
      · exact unknown (List.mem_singleton.mp mem ▸ hu)
  | sameInput same => exact h
  | @parameter name default new =>
    obtain ⟨unknown, -⟩ := known.knows_eq_false_iff.mp new
    refine { h with parameters := fun u hu => ?_ }
    rw [List.any_append, h.parameters u hu, Bool.false_or, List.any_cons, List.any_nil, Bool.or_false,
      beq_eq_false_iff_ne]
    rintro rfl
    exact unknown hu
  | connect new =>
    refine { h with currents := List.forall_mem_append.mpr ⟨h.currents, ?_⟩ }
    exact List.forall_mem_singleton.mpr fun i stated => nomatch stated
  | current position unset =>
    refine { h with currents := fun c hc i stated => ?_ }
    obtain ⟨n, found⟩ := List.mem_iff_getElem?.mp hc
    rw [List.getElem?_modify] at found
    obtain ⟨old, before, rfl⟩ := Option.map_eq_some_iff.mp found
    split at stated
    · cases stated
      exact linear
    · exact h.currents old (List.mem_of_getElem? before) i stated
  | equation =>
    exact { h with equations := List.forall_mem_append.mpr ⟨h.equations, List.forall_mem_singleton.mpr linear⟩ }

/-- The laws of the nodes of a linear assembly are linear. -/
theorem IsLinear.nodeEquations {a : Assembly α} (h : IsLinear U a) : ∀ q ∈ a.nodeEquations,
    Expr.IsLinear U true q.lhs ∧ Expr.IsLinear U true q.rhs := by
  refine List.forall_mem_map.mpr fun i _ => ⟨isLinear_mkSum fun e he => ?_, isLinear_num 0⟩
  obtain ⟨c, hc, stated⟩ := List.mem_filterMap.mp he
  exact h.currents c (List.mem_filter.mp hc).1 e stated

end Assembly

/-! ## Linear circuits -/

namespace Circuit

variable {c : Circuit α} {system : System α}

/-- The voltages of nodes are linear: zero or an unknown. -/
theorem isLinear_voltageOf (nodes : List String) (n : Node) :
    Expr.IsLinear U true (Assembly.voltageOf nodes n : Expr α) := by
  unfold Assembly.voltageOf
  split
  · exact isLinear_num 0
  · exact .sym _

theorem isLinear_actions (linear : c.isNonlinear = false) (steady : c.isSteady = true)
    (known : ∀ s, c.isGiven s = true → U s = false) : ∀ action ∈ c.actions, action.IsLinear U := by
  refine List.forall_mem_append.mpr ⟨List.forall_mem_map.mpr fun _ _ => trivial, ?_⟩
  intro action mem
  obtain ⟨component, hc, mem⟩ := List.mem_flatMap.mp mem
  refine component.isLinear_actions (isLinear_voltageOf c.nodes) known ?_ ?_ action mem
  · simpa using List.any_eq_false.mp linear component hc
  · exact List.all_eq_true.mp (List.all_eq_true.mp steady component hc)

/-- What is given in a circuit is given in its system. -/
theorem isGiven_of_equations (found : c.equations = .ok system) {s : Symbol}
    (given : c.isGiven s = true) : system.isGiven s = true := by
  obtain ⟨assembly, performed, finished⟩ := exists_of_equations found
  obtain ⟨rfl, -⟩ := Assembly.finish_eq_ok_iff.mp finished
  rcases Bool.or_eq_true_iff.mp given with given | time
  · obtain ⟨p, hp, same⟩ := List.any_eq_true.mp given
    have mem : .parameter p.name p.default ∈ c.actions :=
      List.mem_append_left _ (List.mem_map_of_mem hp)
    have declared := Assembly.mem_parameters_of_performAll performed mem
    exact Bool.or_eq_true_iff.mpr (.inl (List.any_eq_true.mpr ⟨_, declared, same⟩))
  · exact Bool.or_eq_true_iff.mpr (.inr time)

/-- The system of a linear circuit is linear. -/
theorem isLinear_equations (linear : c.isNonlinear = false) (steady : c.isSteady = true)
    (found : c.equations = .ok system) : system.IsLinear := by
  have known : ∀ s, c.isGiven s = true → (!system.isGiven s) = false := fun s given => by
    rw [isGiven_of_equations found given]
    rfl
  have actions := isLinear_actions linear steady known
  obtain ⟨assembly, performed, finished⟩ := exists_of_equations found
  have assembled : assembly.KnowsRoles ∧ assembly.IsLinear (!system.isGiven ·) := by
    have kept := Assembly.performAll_invariant (P := fun a => a.KnowsRoles ∧ a.IsLinear (!system.isGiven ·))
      (fun action (mem : action ∈ c.actions) a a' performed h =>
        ⟨h.1.perform performed, h.2.perform h.1 (actions action mem) performed⟩)
      ⟨Assembly.knowsRoles_ofNodes c.nodes, Assembly.isLinear_ofNodes c.nodes⟩
    rwa [performed] at kept
  obtain ⟨known, assembled⟩ := assembled
  obtain ⟨result, -, closed, -⟩ := Assembly.finish_eq_ok_iff.mp finished
  have knows : ∀ q ∈ system.equations, ∀ s, q.lhs.contains s = true ∨ q.rhs.contains s = true →
      (!system.knows s) = false := by
    intro q hq s hs
    have roles : system.knows s = (assembly.knows s || s == .time) := by
      rw [result]
      refine Bool.eq_iff_iff.mpr ?_
      simp [System.knows, System.isGiven, System.isParameter, Assembly.knows, known s, Assembly.roles, or_assoc]
    rw [Bool.not_eq_false', roles, Bool.or_eq_true, beq_iff_eq]
    rw [result] at hq
    exact closed s (Assembly.mem_symbolsOf.mpr ⟨q, hq, hs⟩)
  subst result
  constructor
  · exact List.forall_mem_append.mpr ⟨assembled.equations, assembled.nodeEquations⟩
  · intro q hq
    exact ⟨dependsOn_eq_false_iff.mpr fun s hs => knows q hq s (.inl hs),
      dependsOn_eq_false_iff.mpr fun s hs => knows q hq s (.inr hs)⟩
  · exact assembled.current
  · intro u hu
    refine Bool.or_eq_false_iff.mpr ⟨assembled.parameters u hu, beq_eq_false_iff_ne.mpr ?_⟩
    rintro rfl
    exact assembled.time hu
  · exact assembled.inputs

/-- A step of the program of a linear circuit solves the discretized equations of the circuit: those of the nodes, of
the branches and of the trapezoidal rule. It changes nothing else that has a symbol. -/
theorem step_satisfies_equations {law : UpdateLaw α} {p : Program α} {rs : Registers α} {rate tolerance : α}
    (linear : c.isNonlinear = false) (steady : c.isSteady = true) (found : c.equations = .ok system)
    (solved : UpdateLaw.ofSystem system rate = .ok law) (straight : law.newton? = none)
    (compiled : Program.ofLaw law tolerance = .ok p) (ready : p.Ready rs)
    (divisible : system.Divisible rate (Program.valuation law rs)) (budget : Nat) :
    Program.Solves law system (1 / rate) (p.step budget rs) ∧
      ∀ s ∉ law.unknowns, Program.symbols law (p.step budget rs) s = Program.symbols law rs s :=
  Program.step_solves (isLinear_equations linear steady found) solved straight compiled ready divisible
    budget

/-- A low pass whose resistance is a parameter. -/
def lowPass : Circuit ℚ where
  components := [
    ⟨"V1", .voltageSource ⟨1⟩ .ground .zero (some ⟨"Vin", .one⟩)⟩,
    ⟨"R1", .resistor ⟨1⟩ ⟨2⟩ (.named "r")⟩,
    ⟨"C1", .capacitor ⟨2⟩ .ground (.mkNum 2)⟩]
  nodes := ["0", "in", "out"]
  parameters := [⟨"r", 3, 1⟩]
  inputNode? := some ⟨1⟩
  signal := "Vin"
  outputNode := ⟨2⟩

/-- The registers of a program at first, with the input eight and the parameter three. -/
def charged (p : Program ℚ) : Registers ℚ :=
  (p.registers₀.write (p.layout.input 0) 8).write (p.layout.parameter 0) 3

theorem step_satisfies_equations_lowPass :
    ∃ system law p, lowPass.equations = .ok system ∧ UpdateLaw.ofSystem system 2 = .ok law ∧
      Program.ofLaw law 1 = .ok p ∧
        Program.Solves law system (1 / 2) (p.step 1 (charged p)) ∧
          ∀ s ∉ law.unknowns, Program.symbols law (p.step 1 (charged p)) s = Program.symbols law (charged p) s := by
  have conditions : (match lowPass.equations with
      | .error _ => false
      | .ok system => match UpdateLaw.ofSystem system 2 with
        | .error _ => false
        | .ok law => match Program.ofLaw law 1 with
          | .error _ => false
          | .ok p => law.newton?.isNone && (decide (p.registers ≤ (charged p).size) &&
              (decide (∀ c ∈ p.constants, (charged p).value c.1 = c.2) &&
              decide (system.Divisible 2 (Program.valuation law (charged p)))))) = true := by
    decide +kernel
  cases found : lowPass.equations with
  | error e => rw [found] at conditions; cases conditions
  | ok system =>
    rw [found] at conditions
    cases solved : UpdateLaw.ofSystem system 2 with
    | error e => simp only [solved] at conditions; cases conditions
    | ok law =>
      cases compiled : Program.ofLaw law 1 with
      | error e => simp only [solved, compiled] at conditions; cases conditions
      | ok p =>
        simp only [solved, compiled, Bool.and_eq_true, decide_eq_true_eq,
          Option.isNone_iff_eq_none] at conditions
        obtain ⟨straight, size, constants, divisible⟩ := conditions
        exact ⟨system, law, p, rfl, solved, compiled, step_satisfies_equations (by decide) (by decide +kernel)
          found solved straight compiled ⟨size, constants⟩ divisible 1⟩

end Circuit

end AnalogCircuit
