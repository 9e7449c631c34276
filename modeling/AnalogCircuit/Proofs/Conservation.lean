import AnalogCircuit.Proofs.Difference
import AnalogCircuit.Proofs.Instant
import AnalogCircuit.Proofs.Terminals
/-!
# Conservation of charge

What flows into an element flows out of it again: wherever the currents at its terminals are defined they add up to
zero, whatever nodes the terminals share. Only the output current of an amplifier returns through ground, to which it
has no terminal of its own. So the currents at all nodes of a circuit without amplifiers add up to zero, and the law of
ground, which has no equation, follows from those of the other nodes.

Each device is gone through once, for every interpretation of expressions in which symbols have values; that a
potentiometer states the current through its lower half only with a sign in front is what quotients of differences are
needed for. The currents at the nodes are those at the terminals, grouped differently.
-/

namespace AnalogCircuit

variable {α : Type}

section

variable [ExactScalar α]

namespace Expr.Interpretation

/-! ## Sums of currents -/

/-- The stated currents are all defined. -/
def Defined (M : Interpretation α) (cs : List (Connection α)) : Prop := ∀ e ∈ cs.filterMap (·.current?), M.Regular e

/-- The sum of the stated currents. -/
def inflow (M : Interpretation α) (cs : List (Connection α)) : α := ((cs.filterMap (·.current?)).map M.value).sum

variable {M : Interpretation α}

theorem inflow_append (cs cs' : List (Connection α)) : M.inflow (cs ++ cs') = M.inflow cs + M.inflow cs' := by
  simp [inflow]

theorem defined_append {cs cs' : List (Connection α)} : M.Defined (cs ++ cs') ↔ M.Defined cs ∧ M.Defined cs' := by
  rw [Defined, List.filterMap_append, List.forall_mem_append]
  rfl

/-- The currents at all nodes are the currents at all terminals. -/
theorem sum_inflow_filter {cs : List (Connection α)} {n : Nat} (inside : ∀ q ∈ cs, q.terminal.node.index < n) :
    ((List.range n).map fun k => M.inflow (cs.filter (·.terminal.node == ⟨k⟩))).sum = M.inflow cs := by
  induction cs with
  | nil => simp [inflow]
  | cons q cs ih =>
    obtain ⟨here, others⟩ := List.forall_mem_cons.mp inside
    have first (k : Nat) : M.inflow ((q :: cs).filter (·.terminal.node == ⟨k⟩)) =
        (if k = q.terminal.node.index then M.inflow [q] else 0) + M.inflow (cs.filter (·.terminal.node == ⟨k⟩)) := by
      by_cases own : k = q.terminal.node.index
      · rw [List.filter_cons_of_pos (by simp [own]), if_pos own, ← inflow_append]
        rfl
      · have other : ¬(q.terminal.node == ⟨k⟩) = true := fun same => own (by rw [eq_of_beq same])
        rw [List.filter_cons, if_neg other, if_neg own, zero_add]
    have once : (List.range n).count q.terminal.node.index = 1 :=
      List.count_eq_one_of_mem List.nodup_range (List.mem_range.mpr here)
    simp only [first]
    rw [List.sum_map_add, ih others, List.sum_map_ite_eq, once]
    show _ = M.inflow ([q] ++ cs)
    rw [inflow_append]
    simp

/-- The current at a node is the sum of the currents stated there. -/
theorem nodeCurrent_denotes {a : Assembly α} (defined : M.Defined a.connections) (n : Node) :
    M.Denotes (a.nodeCurrent n) (M.inflow (a.connections.filter (·.terminal.node == n))) :=
  M.mkSum_denotes fun e he => defined e (((List.filter_sublist).filterMap _).subset he)

/-! ## The currents of a device -/

theorem value_add_neg {e : Expr α} (h : M.Regular e) : M.value e + M.value (-e) = 0 := by
  rw [(M.neg_denotes h).2, add_neg_cancel]

theorem div_num_denotes {e : Expr α} (h : M.Regular e) (d : α) : M.Denotes (e / num d) (M.value e / d) := by
  have all : ∀ x ∈ [e, num d⁻¹], M.Regular x := by simp [h]
  obtain ⟨regular, value⟩ := M.mkProduct_denotes all
  rw [div_num_eq]
  exact ⟨regular, by rw [value]; simp [div_eq_mul_inv]⟩

theorem regular_of_isPotential (symbols : ∀ s, M.Regular (sym s)) {e : Expr α} (h : IsPotential e) : M.Regular e := by
  rcases h with rfl | ⟨s, rfl⟩
  · exact M.denotes_zero.1
  · exact symbols s

/-- The current through the lower half of a potentiometer is defined if its negation is. -/
theorem regular_div_lower (symbols : ∀ s, M.Regular (sym s)) {x y : Expr α} (hx : IsPotential x) (hy : IsPotential y)
    (track : Potentiometer α) (h : M.Regular (-((x - y) / track.lower))) : M.Regular ((x - y) / track.lower) := by
  have difference : M.Regular (x - y) :=
    (M.sub_denotes (regular_of_isPotential symbols hx) (regular_of_isPotential symbols hy)).1
  unfold Potentiometer.lower Potentiometer.atLeast mkCall at h ⊢
  split at h
  · contradiction
  split at h
  · rw [mkNum_eq]
    exact (div_num_denotes difference _).1
  · exact (hx.isMultiple_sub hy).regular_of_neg difference (isBase_call _ _) (fun _ same => by cases same)
      (fun _ same => by cases same) h

end Expr.Interpretation

open Expr Interpretation

/-- The current that a device takes in altogether, given the voltages at its nodes: the output current of an amplifier,
and nothing for all others. -/
def Device.drain (v : Node → α) : Device α → α
  | .amplifier out p n law => (v out - law.gain * (v p - v n)) / law.outputResistance
  | _ => 0

/-- Only amplifiers take in a current. -/
theorem Device.drain_eq_zero {d : Device α} (h : d.kind ≠ .opAmp) (v : Node → α) : d.drain v = 0 := by
  cases d with
  | amplifier => exact absurd rfl h
  | _ => rfl

variable {M : Interpretation α}

/-- The currents at the terminals of an element add up to what its device takes in. -/
theorem Component.inflow_currents (symbols : ∀ s, M.Regular (sym s)) {v : Node → Expr α}
    (potentials : ∀ n, IsPotential (v n)) (x : Component α) (defined : M.Defined (x.currents v)) :
    M.inflow (x.currents v) = x.device.drain (fun n => M.value (v n)) := by
  have potential (n : Node) : M.Regular (v n) := regular_of_isPotential symbols (potentials n)
  have difference (a b : Node) : M.Denotes (v a - v b) (M.value (v a) - M.value (v b)) :=
    M.sub_denotes (potential a) (potential b)
  obtain ⟨name, device⟩ := x
  unfold Defined at defined
  unfold inflow
  cases device with
  | resistor | capacitor | inductor | currentSource | diode =>
    simp [currents, laws, through, Action.stated] at defined ⊢
    exact value_add_neg defined.1
  | voltageSource p n e drive? =>
    cases drive? <;> simp [currents, laws, through, Action.stated] at defined ⊢ <;> exact value_add_neg defined.1
  | transistor k b e law =>
    simp [currents, laws, Action.stated] at defined ⊢
    obtain ⟨collector, base, -⟩ := defined
    obtain ⟨sum, value⟩ := M.add_denotes collector base
    rw [← add_assoc, ← value, value_add_neg sum]
    rfl
  | amplifier out p n law =>
    simp [currents, laws, through, Action.stated] at defined ⊢
    obtain ⟨amplified, value⟩ := M.mul_denotes (M.regular_num law.gain) (difference p n).1
    obtain ⟨rest, value'⟩ := M.sub_denotes (potential out) amplified
    rw [value_add_neg defined.2.1, add_zero, (div_num_denotes rest _).2, value', value, M.value_num, (difference p n).2]
    rfl
  | potentiometer a w b track =>
    simp [currents, laws, Action.stated] at defined ⊢
    obtain ⟨upper, -, negated⟩ := defined
    have lower := regular_div_lower symbols (potentials w) (potentials b) track negated
    rw [(M.sub_denotes lower upper).2, (M.neg_denotes lower).2]
    show _ = 0
    ring
  | transformer pa pc sa sc turns =>
    simp [currents, laws, through, Action.stated] at defined ⊢
    obtain ⟨primary, -, -, secondary⟩ := defined
    rw [(M.neg_denotes primary).2, (M.neg_denotes secondary).2]
    show _ = 0
    ring

/-! ## Circuits -/

theorem Assembly.isPotential_voltageOf (nodes : List String) (n : Node) :
    IsPotential (Assembly.voltageOf (α := α) nodes n) := by
  unfold Assembly.voltageOf
  split
  · exact .inl rfl
  · exact .inr ⟨_, rfl⟩

/-- The currents into all elements of a circuit add up to what the devices take in. -/
theorem Circuit.inflow_currents (symbols : ∀ s, M.Regular (sym s)) (c : Circuit α) (defined : M.Defined c.currents) :
    M.inflow c.currents =
      (c.components.map fun x => x.device.drain fun n => M.value (Assembly.voltageOf c.nodes n)).sum := by
  unfold currents at defined ⊢
  generalize c.components = xs at defined ⊢
  induction xs with
  | nil => rfl
  | cons x xs ih =>
    rw [List.flatMap_cons, defined_append] at defined
    rw [List.flatMap_cons, inflow_append, ih defined.2, List.map_cons, List.sum_cons,
      Component.inflow_currents symbols (Assembly.isPotential_voltageOf c.nodes) x defined.1]

/-- The currents at all nodes of a circuit from a text add up to what its devices take in. -/
theorem Circuit.nodeCurrents_denote (symbols : ∀ s, M.Regular (sym s)) {text : String} {c : Circuit α}
    (read : ofText text = .ok c) {a : Assembly α}
    (done : (Assembly.ofNodes c.nodes).performAll c.actions = (a, none)) (defined : M.Defined a.connections) :
    (∀ n, M.Regular (a.nodeCurrent n)) ∧ ((List.range c.nodes.length).map fun k => M.value (a.nodeCurrent ⟨k⟩)).sum =
      (c.components.map fun x => x.device.drain fun n => M.value (Assembly.voltageOf c.nodes n)).sum := by
  have current (n : Node) := nodeCurrent_denotes defined n
  refine ⟨fun n => (current n).1, ?_⟩
  obtain ⟨connections, -⟩ := connections_of_performAll read done
  rw [connections] at defined current
  simp only [fun k : Nat => (current ⟨k⟩).2]
  rw [sum_inflow_filter fun q hq => node_inside read hq, c.inflow_currents symbols defined]

end

/-! ## Instants -/

namespace Instant

/-- The voltage of a node, given the names of all nodes. -/
def potential [Zero α] (i : Instant α) (nodes : List String) (n : Node) : α :=
  if n.isGround then 0 else i.symbol (Assembly.voltageSymbol (nodes.getD n.index ""))

variable [ExactScalar α]

/-- The sum of the currents that are stated at some terminals, where all of them are defined. -/
def inflow? (i : Instant α) (cs : List (Connection α)) : Option α := i.sum? (cs.filterMap (·.current?))

variable {i : Instant α}

theorem inflow?_eq_some_iff {cs : List (Connection α)} {t : α} :
    i.inflow? cs = some t ↔ i.interpretation.Defined cs ∧ i.interpretation.inflow cs = t := sum?_eq_some_iff

theorem value_voltageOf (nodes : List String) (n : Node) :
    i.interpretation.value (Assembly.voltageOf nodes n) = i.potential nodes n := by
  unfold Assembly.voltageOf potential
  split
  · exact i.interpretation.denotes_zero.2
  · rfl

/-- An element that is added takes in what its device takes in, which is nothing unless it is an amplifier. -/
theorem inflow_of_added {a a' : Assembly α} {x : Component α} (done : a.performAll (x.actions a.voltage) = (a', none)) :
    ∃ added, a'.connections = a.connections ++ added ∧ added.map (·.terminal) = x.terminals ∧
      (∀ q ∈ added, q.current?.isSome = true) ∧
      ∀ total, i.inflow? added = some total → total = x.device.drain (i.potential a.nodes) := by
  refine ⟨x.currents a.voltage, Assembly.connections_actions done, x.terminals_currents, ?_, ?_⟩
  · exact fun q mem => Action.isSome_of_mem_stated mem
  · intro total sum
    have potentials (n : Node) : Expr.IsPotential (a.voltage n) := Assembly.isPotential_voltageOf a.nodes n
    have values (n : Node) : i.interpretation.value (a.voltage n) = i.potential a.nodes n := value_voltageOf a.nodes n
    obtain ⟨defined, rfl⟩ := inflow?_eq_some_iff.mp sum
    rw [x.inflow_currents regular_sym potentials defined]
    simp only [values]

/-- The currents at all nodes of a circuit add up to the output currents of its amplifiers. -/
theorem sum_nodeCurrents {text : String} {c : Circuit α} (read : Circuit.ofText text = .ok c) {a : Assembly α}
    (done : (Assembly.ofNodes c.nodes).performAll c.actions = (a, none))
    (defined : (i.inflow? a.connections).isSome = true) :
    i.sum? ((List.range c.nodes.length).map fun k => a.nodeCurrent ⟨k⟩) =
      some (c.components.map fun x => x.device.drain (i.potential c.nodes)).sum := by
  obtain ⟨total, sum⟩ := Option.isSome_iff_exists.mp defined
  obtain ⟨regular, value⟩ := c.nodeCurrents_denote regular_sym read done (inflow?_eq_some_iff.mp sum).1
  rw [sum?_eq_some_iff, List.map_map]
  refine ⟨List.forall_mem_map.mpr fun k _ => regular ⟨k⟩, ?_⟩
  simp only [value_voltageOf] at value
  exact value

/-- If the currents at all nodes add up to zero and the laws of the other nodes hold, then so does that of ground. -/
theorem nodeCurrent_ground {a : Assembly α} (nonempty : a.nodes ≠ [])
    (sum : i.sum? ((List.range a.nodes.length).map fun k => a.nodeCurrent ⟨k⟩) = some 0)
    (laws : ∀ q ∈ a.nodeEquations, i.value? q.lhs = i.value? q.rhs) : i.value? (a.nodeCurrent .ground) = some 0 := by
  obtain ⟨n, length⟩ := Nat.exists_eq_succ_of_ne_zero (mt List.length_eq_zero_iff.mp nonempty)
  unfold Assembly.nodeEquations at laws
  rw [length, List.range_succ_eq_map] at sum laws
  obtain ⟨regular, values⟩ := sum?_eq_some_iff.mp sum
  have other : ∀ k ∈ (List.range n).map Nat.succ, i.interpretation.value (a.nodeCurrent ⟨k⟩) = 0 := by
    intro k hk
    have law := laws _ (List.mem_map_of_mem hk)
    exact (value?_eq_some_iff.mp (law.trans (value?_eq_some_iff.mpr i.interpretation.denotes_zero))).2
  refine value?_eq_some_iff.mpr ⟨regular _ List.mem_cons_self, ?_⟩
  rw [List.map_cons, List.map_cons, List.sum_cons, List.map_map, List.sum_eq_zero, add_zero] at values
  · exact values
  · intro y hy
    obtain ⟨k, hk, rfl⟩ := List.mem_map.mp hy
    exact other k hk

/-- Whatever element is added to an assembly, the currents at its terminals add up to zero at every instant at which
they are defined, unless it is an amplifier: then they add up to its output current, which returns through ground. So
the currents at all nodes of a circuit without amplifiers add up to zero, ground included, and the law of ground follows
from those of the other nodes. -/
theorem currents_conserve_charge (i : Instant α) :
    (∀ (a a' : Assembly α) (x : Component α), a.performAll (x.actions a.voltage) = (a', none) →
      ∃ added, a'.connections = a.connections ++ added ∧ added.map (·.terminal) = x.terminals ∧
        (∀ q ∈ added, q.current?.isSome = true) ∧
        ∀ total, i.inflow? added = some total → total = x.device.drain (i.potential a.nodes)) ∧
    ∀ (text : String) (c : Circuit α) (a : Assembly α), Circuit.ofText text = .ok c →
      (∀ x ∈ c.components, x.device.kind ≠ .opAmp) →
      (Assembly.ofNodes c.nodes).performAll c.actions = (a, none) → (i.inflow? a.connections).isSome = true →
      i.sum? ((List.range c.nodes.length).map fun k => a.nodeCurrent ⟨k⟩) = some 0 ∧
        ((∀ q ∈ a.nodeEquations, i.value? q.lhs = i.value? q.rhs) → i.value? (a.nodeCurrent .ground) = some 0) := by
  refine ⟨fun a a' x done => inflow_of_added done, ?_⟩
  intro text c a read plain done defined
  have drains : (c.components.map fun x => x.device.drain (i.potential c.nodes)).sum = 0 := by
    refine List.sum_eq_zero fun y hy => ?_
    obtain ⟨x, hx, rfl⟩ := List.mem_map.mp hy
    exact Device.drain_eq_zero (plain x hx) _
  have sum := sum_nodeCurrents read done defined
  rw [drains] at sum
  obtain ⟨-, nodes⟩ := Circuit.connections_of_performAll read done
  obtain ⟨n, -, denotes, -⟩ := Circuit.ofText_eq_ok_iff.mp read
  refine ⟨sum, fun laws => nodeCurrent_ground ?_ (nodes ▸ sum) laws⟩
  rw [nodes, denotes.nodes]
  exact List.cons_ne_nil _ _

/-- A volume control, in the middle, with a capacitor at its output. -/
def volume : String := "POT1 in out 0 10\nC1 out 0 1\n.input in\n.output out"

/-- The input is at four volts, the output at one, and the voltage at the capacitor rises. -/
def risingVolume : Instant ℚ where
  symbol s := ((["V[in]", "V[out]", "i[V_input]"].zip [4, 1, -3 / 5]).lookup s.name).getD 0
  derivative _ _ := 2 / 5
  integral _ _ := 0

/-- Nodes of these names, and no elements. -/
def bare : Assembly ℚ := Assembly.ofNodes ["0", "in", "out"]

/-- An amplifier from the input to the output, with one of its own inputs at ground. -/
def booster : Component ℚ := ⟨"U1", .amplifier ⟨2⟩ ⟨1⟩ .ground ⟨1000, 2, 1⟩⟩

/-- The amplifier takes in its output current; the currents of the volume control are all other than zero, and add up to
zero at every node. -/
theorem currents_conserve_charge_volume :
    (∃ a, bare.performAll (booster.actions bare.voltage) = (a, none) ∧
      risingVolume.inflow? a.connections = some (-3999 / 2) ∧
      booster.device.drain (risingVolume.potential bare.nodes) = -3999 / 2) ∧
    ∃ (c : Circuit ℚ) (a : Assembly ℚ), Circuit.ofText volume = .ok c ∧
      (Assembly.ofNodes c.nodes).performAll c.actions = (a, none) ∧
      (∀ q ∈ a.connections, q.current?.bind risingVolume.value? ≠ some 0) ∧
      (∀ q ∈ a.nodeEquations, risingVolume.value? q.lhs = risingVolume.value? q.rhs) ∧
      risingVolume.sum? ((List.range c.nodes.length).map fun k => a.nodeCurrent ⟨k⟩) = some 0 ∧
      risingVolume.value? (a.nodeCurrent .ground) = some 0 := by
  obtain ⟨added, circuits⟩ := currents_conserve_charge risingVolume
  constructor
  · have done : bare.performAll (booster.actions bare.voltage) =
        ((bare.performAll (booster.actions bare.voltage)).1, none) :=
      Prod.ext rfl (Option.isNone_iff_eq_none.mp (by decide +kernel))
    have total : risingVolume.inflow? (bare.performAll (booster.actions bare.voltage)).1.connections =
        some (-3999 / 2) := by decide +kernel
    obtain ⟨new, connections, -, -, sums⟩ := added _ _ _ done
    exact ⟨_, done, total, (sums _ (by rwa [connections] at total)).symm⟩
  · have facts : (Circuit.ofText (α := ℚ) volume).toOption.any (fun c =>
        let run := (Assembly.ofNodes c.nodes).performAll c.actions
        decide ((∀ x ∈ c.components, x.device.kind ≠ .opAmp) ∧ run.2.isNone = true ∧
          (risingVolume.inflow? run.1.connections).isSome = true ∧
          (∀ q ∈ run.1.connections, q.current?.bind risingVolume.value? ≠ some 0) ∧
          ∀ q ∈ run.1.nodeEquations, risingVolume.value? q.lhs = risingVolume.value? q.rhs)) = true := by
      decide +kernel
    cases read : Circuit.ofText (α := ℚ) volume with
    | error e =>
      rw [read] at facts
      cases facts
    | ok c =>
      rw [read] at facts
      obtain ⟨plain, ended, defined, flowing, laws⟩ := of_decide_eq_true facts
      have done : (Assembly.ofNodes c.nodes).performAll c.actions =
          (((Assembly.ofNodes c.nodes).performAll c.actions).1, none) :=
        Prod.ext rfl (Option.isNone_iff_eq_none.mp ended)
      obtain ⟨sum, ground⟩ := circuits volume c _ read plain done defined
      exact ⟨c, _, rfl, done, flowing, laws, sum, ground laws⟩

end Instant

end AnalogCircuit
