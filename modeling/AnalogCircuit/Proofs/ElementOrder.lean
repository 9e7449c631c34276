import AnalogCircuit.Proofs.Collecting
import AnalogCircuit.Proofs.Composed
import AnalogCircuit.Proofs.Reordering
import AnalogCircuit.Proofs.Square
/-!
# The order of the elements

The laws of the nodes add up the currents into the elements, and a canonical sum does not depend on the order of its
terms. So the order of the elements decides nothing but the order of their branch currents and of their own equations.
-/

namespace AnalogCircuit

namespace Component

variable {α : Type}

theorem mem_signals {x : Component α} {signal : String} (driven : x.device.DrivenBy signal) {s : Symbol}
    (h : s ∈ x.signals) : s = .named signal := by
  unfold signals at h
  split at h
  · next device => rw [List.mem_singleton.mp h, driven _ _ _ _ device]
  · cases h

end Component

namespace Circuit

variable {α : Type} {c : Circuit α} {cs : List (Component α)}

/-! ## What does not depend on the order -/

section

variable [Scalar α]

/-- There is one signal at most, so it does not matter which element declares it first. -/
theorem inputs_eq_of_perm (names : c.IsWellNamed) (perm : c.components.Perm cs) :
    (c.withComponents cs).system.inputs = c.system.inputs := by
  refine ((perm.flatMap_right _).foldl_eq' (fun s hs t ht inputs => ?_) []).symm
  obtain ⟨x, hx, hs⟩ := List.mem_flatMap.mp hs
  obtain ⟨y, hy, ht⟩ := List.mem_flatMap.mp ht
  rw [Component.mem_signals (names.drives x hx) hs, Component.mem_signals (names.drives y hy) ht]

theorem mem_roles_of_perm (names : c.IsWellNamed) (perm : c.components.Perm cs) {s : Symbol} :
    s ∈ (c.withComponents cs).roles ↔ s ∈ c.roles := by
  have unknowns : s ∈ (c.withComponents cs).system.unknowns ↔ s ∈ c.system.unknowns := by
    show s ∈ _ ++ cs.flatMap _ ↔ s ∈ _ ++ c.components.flatMap _
    rw [List.mem_append, List.mem_append, (perm.flatMap_right _).mem_iff]
    rfl
  unfold roles
  rw [List.mem_append, List.mem_append, List.mem_append, List.mem_append, inputs_eq_of_perm names perm, unknowns]
  rfl

end

section

variable [ExactScalar α] [Std.TransCmp (Scalar.order (α := α))]

/-- At each node the same currents are added up. -/
theorem nodeLaws_eq_of_perm (perm : c.components.Perm cs) : (c.withComponents cs).nodeLaws = c.nodeLaws := by
  have currents : (c.withComponents cs).currents.Perm c.currents := (perm.flatMap_right _).symm
  refine List.map_congr_left fun i _ => ?_
  rw [Expr.mkSum_eq_of_perm ((currents.filter _).filterMap _)]

/-- If a circuit has equations, it has with its components in another order. -/
theorem equations_of_perm (names : c.IsWellNamed) (names' : (c.withComponents cs).IsWellNamed)
    (perm : c.components.Perm cs) {s : System α} (h : c.equations = .ok s) :
    (c.withComponents cs).equations = .ok (c.withComponents cs).system := by
  obtain ⟨rfl, apart, closed⟩ := (equations_eq_ok_iff names).mp h
  refine (equations_eq_ok_iff names').mpr ⟨rfl, fun t ht => ?_, fun t ht => ?_⟩
  · exact apart t ((perm.flatMap_right _).mem_iff.mpr ht)
  · rw [mem_roles_of_perm names perm]
    refine closed t (Assembly.mem_symbolsOf.mpr ?_)
    obtain ⟨q, hq, ht⟩ := Assembly.mem_symbolsOf.mp ht
    -- every equation was there before
    refine ⟨q, ?_, ht⟩
    rcases List.mem_append.mp hq with hq | hq
    · exact List.mem_append_left _ ((perm.flatMap_right _).mem_iff.mpr hq)
    · exact List.mem_append_right _ (nodeLaws_eq_of_perm perm ▸ hq)

/-! ## Texts -/

/-- The circuits and the systems of two texts are the same up to the order of their element lines. -/
structure AgreeUpToOrder (text text' : String) (c c' : Circuit α) (s s' : System α) : Prop where
  /-- Nodes have the same numbers, and nothing else differs in the circuits but the components. -/
  circuit : c' = c.withComponents c'.components
  /-- Each line has a component, the same in both texts, and what is added behind is the same. -/
  components : ∃ (component : List Char → Component α) (sources : List (Component α)),
    c.components = (Netlist.elementLines text).map component ++ sources ∧
      c'.components = (Netlist.elementLines text').map component ++ sources
  inputs : s'.inputs = s.inputs
  parameters : s'.parameters = s.parameters
  /-- The voltages are the same and in the same order, and the branch currents are in the order of the components. -/
  unknowns :
    s.unknowns = c.nodes.tail.map Assembly.voltageSymbol ++ c.components.flatMap (·.branches.map .named) ∧
      s'.unknowns = c.nodes.tail.map Assembly.voltageSymbol ++ c'.components.flatMap (·.branches.map .named)
  /-- The equations of the components are in their order, and the laws of the nodes are the same and in the same order. -/
  equations :
    s.equations = c.components.flatMap (·.equations (Assembly.voltageOf c.nodes)) ++ c.nodeLaws ∧
      s'.equations = c'.components.flatMap (·.equations (Assembly.voltageOf c.nodes)) ++ c.nodeLaws

/-- If a text denotes a circuit that has equations, so does every text with its element lines in another order, and
nothing but the order of what belongs to the single elements is different. -/
theorem equations_of_reordered {text text' : String} (h : Netlist.Reordered text text') {c : Circuit α}
    (read : ofText text = .ok c) {s : System α} (assembled : c.equations = .ok s) :
    ∃ c' s', ofText text' = .ok c' ∧ c'.equations = .ok s' ∧ AgreeUpToOrder text text' c c' s s' := by
  obtain ⟨component, sources, components, read'⟩ := ofText_of_reordered h read
  have names := isWellNamed_ofText read
  have perm : c.components.Perm ((Netlist.elementLines text').map component ++ sources) := by
    rw [components]
    exact (h.1.map component).append_right sources
  obtain ⟨rfl, -⟩ := (equations_eq_ok_iff names).mp assembled
  refine ⟨_, _, read', equations_of_perm names (isWellNamed_ofText read') perm assembled, ?_⟩
  exact {
    circuit := rfl
    components := ⟨component, sources, components, rfl⟩
    inputs := inputs_eq_of_perm names perm
    parameters := rfl
    unknowns := ⟨rfl, rfl⟩
    equations := ⟨rfl, congrArg (_ ++ ·) (nodeLaws_eq_of_perm perm)⟩ }

/-- An inductor and a transformer, with directives in between; the source at the input is added. -/
def chain : String := "L1 in a 1m\n.input in\nXFMR T1 a 0 out 0 2\nR1 out 0 1k\n.output out"

/-- The same elements, the last one first. -/
def chainFromBehind : String := "R1 out 0 1k\n.input in\nXFMR T1 a 0 out 0 2\nL1 in a 1m\n.output out"

theorem reordered_chain : Netlist.Reordered chain chainFromBehind := by decide +kernel

/-- The branch currents change places, the voltages stay. -/
theorem equations_chainFromBehind : ∃ (c c' : Circuit ℚ) (s s' : System ℚ), Netlist.Reordered chain chainFromBehind ∧
    ofText chain = .ok c ∧ c.equations = .ok s ∧ ofText chainFromBehind = .ok c' ∧ c'.equations = .ok s' ∧
    AgreeUpToOrder chain chainFromBehind c c' s s' ∧
    s.unknowns.map (·.name) = ["V[a]", "V[in]", "V[out]", "i[L1]", "i[T1.p]", "i[T1.s]", "i[V_input]"] ∧
    s'.unknowns.map (·.name) = ["V[a]", "V[in]", "V[out]", "i[T1.p]", "i[T1.s]", "i[L1]", "i[V_input]"] := by
  obtain ⟨c, s, read, found, names⟩ := unknownNames?_eq_some_iff.mp <| show unknownNames? ℚ chain =
    some ["V[a]", "V[in]", "V[out]", "i[L1]", "i[T1.p]", "i[T1.s]", "i[V_input]"] by decide +kernel
  obtain ⟨c₁, s₁, read₁, found₁, names₁⟩ := unknownNames?_eq_some_iff.mp <| show unknownNames? ℚ chainFromBehind =
    some ["V[a]", "V[in]", "V[out]", "i[T1.p]", "i[T1.s]", "i[L1]", "i[V_input]"] by decide +kernel
  obtain ⟨c', s', read', found', agree⟩ := equations_of_reordered reordered_chain read found
  obtain rfl := Except.ok.inj (read₁.symm.trans read')
  obtain rfl := Except.ok.inj (found₁.symm.trans found')
  exact ⟨c, c₁, s, s₁, reordered_chain, read, found, read₁, found₁, agree, names, names₁⟩

end

end Circuit

end AnalogCircuit
