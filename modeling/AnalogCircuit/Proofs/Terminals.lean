import AnalogCircuit.Proofs.Ports
import AnalogCircuit.Proofs.Square
/-!
# Terminals and their currents

An element connects its terminals and then states their currents in the same order. Whatever an assembly holds before,
if nothing fails the new connections come behind the old ones, each with the current that is stated for it: a new name
stands in the index only where it has just been entered. So the connections of a circuit are the terminals of its
elements with their currents, and all of them are at nodes of the circuit.
-/

namespace AnalogCircuit

variable {α : Type}

/-! ## Adding an element -/

namespace Assembly

variable {a a' : Assembly α}

/-- A run of two lists of actions that ends has done the first and then the second. -/
theorem performAll_append {actions actions' : List (Action α)}
    (done : a.performAll (actions ++ actions') = (a', none)) :
    ∃ b, a.performAll actions = (b, none) ∧ b.performAll actions' = (a', none) := by
  induction actions generalizing a with
  | nil => exact ⟨a, rfl, done⟩
  | cons action actions ih =>
    rw [List.cons_append, performAll] at done
    rw [performAll]
    split at done
    · exact ih done
    · cases done

/-- The names of the terminals lead to the places from `start` on. -/
def Indexes (a : Assembly α) (start : Nat) (terminals : List Terminal) : Prop :=
  ∀ j t, terminals[j]? = some t → a.index.lookup t.name = some (start + j)

/-- Connected terminals stand behind the old ones, without a current, and their names lead to them. -/
theorem connections_connect {terminals : List Terminal}
    (done : a.performAll (terminals.map .connect) = (a', none)) :
    a'.connections = a.connections ++ terminals.map (Connection.mk · none) ∧ a'.Indexes a.connections.length terminals ∧
      ∀ name i, a.index.lookup name = some i → a'.index.lookup name = some i := by
  induction terminals generalizing a with
  | nil =>
    cases done
    refine ⟨(List.append_nil _).symm, ?_, fun _ _ found => found⟩
    intro j t there
    cases there
  | cons t terminals ih =>
    rw [List.map_cons, performAll] at done
    split at done
    · next b performed =>
      cases performed_of_perform performed with
      | connect new =>
        obtain ⟨connections, indexes, kept⟩ := ih done
        have own : a'.index.lookup t.name = some a.connections.length := by
          refine kept _ _ ?_
          rw [List.lookup_append, new]
          simp
        refine ⟨?_, ?_, ?_⟩
        · rw [connections, List.append_assoc]
          rfl
        · rintro (_ | j) u there
          · obtain rfl : t = u := Option.some.inj there
            exact own
          · have place := indexes j u there
            rwa [List.length_append, List.length_singleton, Nat.add_assoc, Nat.add_comm 1 j] at place
        · intro name i found
          refine kept _ _ ?_
          rw [List.lookup_append, found]
          rfl
    · cases done

theorem modify_append_cons {β : Type} (front rest : List β) (x : β) (f : β → β) :
    (front ++ x :: rest).modify front.length f = front ++ f x :: rest := by
  induction front with
  | nil => rfl
  | cons y front ih => simpa using ih

/-- Laws that connect nothing and state the currents of the terminals in their order state each at its terminal. The
induction is on the laws; the terminals that are left stand behind those that have their currents. -/
theorem connections_laws {laws : List (Action α)} {front : List (Connection α)} {terminals : List Terminal}
    (closed : laws.flatMap (·.connected) = []) (order : (laws.flatMap (·.stated)).map (·.terminal) = terminals)
    (connections : a.connections = front ++ terminals.map (Connection.mk · none))
    (indexes : a.Indexes front.length terminals) (done : a.performAll laws = (a', none)) :
    a'.connections = front ++ laws.flatMap (·.stated) := by
  induction laws generalizing a front terminals with
  | nil =>
    cases done
    obtain rfl : [] = terminals := order
    exact connections
  | cons action laws ih =>
    rw [performAll] at done
    split at done
    swap
    · cases done
    next b performed =>
    rw [List.flatMap_cons, List.append_eq_nil_iff] at closed
    obtain ⟨here, closed⟩ := closed
    cases performed_of_perform performed with
    | connect new => cases here
    | @current t value i position unset =>
      obtain ⟨terminals, rfl⟩ : ∃ rest, terminals = t :: rest := ⟨_, order.symm⟩
      have first : i = front.length := Option.some.inj (position.symm.trans (indexes 0 t rfl))
      have rest : a'.connections = (front ++ [⟨t, some value⟩]) ++ laws.flatMap (·.stated) := by
        refine ih closed (List.cons.inj order).2 ?_ ?_ done
        · rw [connections, first, List.map_cons, modify_append_cons, List.append_assoc]
          rfl
        · intro j u there
          have place := indexes (j + 1) u there
          rwa [List.length_append, List.length_singleton, Nat.add_assoc, Nat.add_comm 1 j]
      rw [rest, List.append_assoc]
      rfl
    | unknown | input | sameInput | parameter | equation =>
      refine ih closed order ?_ ?_ done
      · exact connections
      · exact indexes

variable [Scalar α]

/-- An element that is added without a failure has its terminals behind the old ones, each with its current. -/
theorem connections_actions {x : Component α} {v : Node → Expr α}
    (done : a.performAll (x.actions v) = (a', none)) : a'.connections = a.connections ++ x.currents v := by
  obtain ⟨b, connected, stated⟩ := performAll_append done
  obtain ⟨connections, indexes, -⟩ := connections_connect connected
  exact connections_laws x.connected_laws x.terminals_currents connections indexes stated

end Assembly

/-! ## Circuits -/

namespace Circuit

variable [Scalar α]

omit [Scalar α] in
theorem exists_of_mapM_eq_ok {β γ : Type} {f : β → Except Error γ} {bs : List β} {cs : List γ}
    (h : bs.mapM f = .ok cs) : ∀ c ∈ cs, ∃ b ∈ bs, f b = .ok c := by
  induction bs generalizing cs with
  | nil =>
    cases h
    exact fun _ h => absurd h List.not_mem_nil
  | cons b bs ih =>
    rw [List.mapM_cons] at h
    obtain ⟨c, first, h⟩ := exists_of_bind_eq_ok h
    obtain ⟨rest, others, h⟩ := exists_of_bind_eq_ok h
    cases h
    refine List.forall_mem_cons.mpr ⟨⟨b, List.mem_cons_self, first⟩, fun c hc => ?_⟩
    obtain ⟨b', hb', found⟩ := ih others c hc
    exact ⟨b', List.mem_cons_of_mem _ hb', found⟩

/-- A name stands for ground or for another of the nodes, of which there is at least one. -/
theorem resolve_inside {nodes : List String} {name : String} {n : Node} (nonempty : 0 < nodes.length)
    (h : resolve nodes name = .ok n) : n.index < nodes.length := by
  cases ground : n.isGround with
  | true =>
    have zero : n.index = 0 := eq_of_beq ground
    rwa [zero]
  | false => exact lt_of_resolve h ground

/-- All components are connected to nodes of the circuit. -/
theorem Denotes.nodes_inside {n : Netlist α} {c : Circuit α} (h : Denotes n c) {x : Component α}
    (mem : x ∈ c.components) {k : Node} (hk : k ∈ x.nodes) : k.index < c.nodes.length := by
  have nonempty : 0 < c.nodes.length := by rw [h.nodes]; exact Nat.succ_pos _
  rcases h.mem_components mem with ⟨e, -, built⟩ | ⟨node, input, rfl⟩
  · obtain ⟨-, ends, model?, resolved, -, built⟩ := componentOf_eq_ok_iff.mp built
    rw [Component.nodes, (serves_deviceOf built).nodes] at hk
    obtain ⟨name, -, found⟩ := exists_of_mapM_eq_ok resolved k hk
    exact resolve_inside nonempty found
  · rcases List.mem_pair.mp (show k ∈ [node, Node.ground] from hk) with rfl | rfl
    · have resolved := h.input
      rw [input] at resolved
      cases declared : n.inputNode? with
      | none =>
        rw [declared] at resolved
        cases resolved
      | some name =>
        rw [declared] at resolved
        obtain ⟨k', found, same⟩ := exists_of_bind_eq_ok resolved
        cases same
        exact resolve_inside nonempty found
    · exact nonempty

/-- The currents of a circuit from a text are stated at its nodes. -/
theorem node_inside {text : String} {c : Circuit α} (h : ofText text = .ok c) {q : Connection α}
    (mem : q ∈ c.currents) : q.terminal.node.index < c.nodes.length := by
  obtain ⟨n, -, denotes, -⟩ := ofText_eq_ok_iff.mp h
  have terminal : q.terminal ∈ c.components.flatMap (·.terminals) :=
    c.terminals_currents ▸ List.mem_map_of_mem mem
  obtain ⟨x, hx, own⟩ := List.mem_flatMap.mp terminal
  refine denotes.nodes_inside hx ?_
  obtain ⟨pin, hpin, same⟩ := List.mem_map.mp own
  rw [← same]
  exact List.mem_map_of_mem hpin

/-- The connections of the assembly of a circuit are the currents of its elements. -/
theorem connections_of_performAll {text : String} {c : Circuit α} (h : ofText text = .ok c) {a : Assembly α}
    (done : (Assembly.ofNodes c.nodes).performAll c.actions = (a, none)) :
    a.connections = c.currents ∧ a.nodes = c.nodes := by
  have names := isWellNamed_ofText h
  constructor
  · rw [(compatible_actions names).connections names.nodes done, stated_actions]
  · exact (Assembly.extends_of_performAll (Assembly.isConsistent_ofNodes names.nodes) done).nodes

end Circuit

end AnalogCircuit
