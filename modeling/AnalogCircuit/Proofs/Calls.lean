import AnalogCircuit.Proofs.Assembly
/-!
# Sequences of calls

An assembly is used by calls, each of which may fail, and after each of which the caller may go on. Adding an element
is a call that connects the terminals of the element and then leaves the assembly to it; what an element does next may
depend on what it sees. Whatever the calls are, the collections of an assembly stay consistent with each other, a
stated current stays as it is, and the equations are those that were added. So a finished system can be described by
what was called.
-/

namespace AnalogCircuit

variable {α : Type}

/-! ## Scripts and calls -/

/-- The equation that an action adds, if it is such an action. -/
def Action.added : Action α → List (Equation α)
  | .equation lhs rhs => [⟨lhs, rhs⟩]
  | _ => []

/-- What a caller does with an assembly: actions, of which each may depend on the failures before and on the assembly by
then. -/
inductive Script (α : Type) where
  | stop
  | act (action : Action α) (next : Option Error → Assembly α → Script α)

namespace Script

/-- The assembly at the end of a script; an action that fails changes nothing. -/
def run : Script α → Assembly α → Assembly α
  | stop, a => a
  | act action next, a =>
    match a.perform action with
    | .ok a' => (next none a').run a'
    | .error e => (next (some e) a).run a

/-- The equations that a script adds. -/
def appended : Script α → Assembly α → List (Equation α)
  | stop, _ => []
  | act action next, a =>
    match a.perform action with
    | .ok a' => action.added ++ (next none a').appended a'
    | .error e => (next (some e) a).appended a

/-- Actions up to the first that fails, and a script if none does. -/
def upTo : List (Action α) → Script α → Script α
  | [], script => script
  | action :: actions, script => act action fun
    | none, _ => upTo actions script
    | some _, _ => stop

end Script

/-- A call on an assembly. -/
inductive Call (α : Type) where
  | action (action : Action α)
  /-- Adds an element with some terminals. -/
  | element (terminals : List Terminal) (script : Script α)

/-- What a call does. -/
def Call.script : Call α → Script α
  | action a => .act a fun _ _ => .stop
  | element terminals script => .upTo (terminals.map .connect) script

namespace Assembly

/-- The assembly after some calls. -/
def after (a : Assembly α) (calls : List (Call α)) : Assembly α :=
  calls.foldl (fun a call => call.script.run a) a

/-- The equations that some calls add. -/
def appended (a : Assembly α) : List (Call α) → List (Equation α)
  | [] => []
  | call :: calls => call.script.appended a ++ (call.script.run a).appended calls

variable {a a' : Assembly α}

/-- Performing a list of actions is one of the scripts. -/
theorem run_upTo_stop (actions : List (Action α)) (a : Assembly α) :
    (Script.upTo actions .stop).run a = (a.performAll actions).1 := by
  induction actions generalizing a with
  | nil => rfl
  | cons action actions ih =>
    rw [Script.upTo, Script.run, performAll]
    cases a.perform action with
    | ok a' => exact ih a'
    | error e => rfl

/-- What each action keeps is kept by every script. -/
theorem run_invariant {P : Assembly α → Prop} (step : ∀ action a a', Performed a action a' → P a → P a')
    (script : Script α) (start : P a) : P (script.run a) := by
  induction script generalizing a with
  | stop => exact start
  | act action next ih =>
    rw [Script.run]
    split
    · next a' performed => exact ih _ _ (step _ _ _ (performed_of_perform performed) start)
    · exact ih _ _ start

/-- What each action keeps is kept by all calls. -/
theorem after_invariant {P : Assembly α → Prop} (step : ∀ action a a', Performed a action a' → P a → P a')
    (calls : List (Call α)) (start : P a) : P (a.after calls) := by
  induction calls generalizing a with
  | nil => exact start
  | cons call calls ih => exact ih (run_invariant step call.script start)

/-! ## Consistency -/

/-- The collections of an assembly agree: no symbol has two roles, the symbols with a role are known and no others, no
two terminals have the same name, and the index leads from each name to its terminal. -/
structure IsConsistent (a : Assembly α) : Prop where
  roles : (a.unknowns ++ a.inputs ++ a.parameters.map (·.symbol)).Nodup
  known (s : Symbol) : s ∈ a.known ↔ s ∈ a.unknowns ++ a.inputs ++ a.parameters.map (·.symbol)
  names : (a.connections.map (·.terminal.name)).Nodup
  index : a.index = (a.connections.map (·.terminal.name)).zipIdx

theorem voltageSymbol_injective : Function.Injective voltageSymbol := by
  intro node node' same
  have same : "V[" ++ node ++ "]" = "V[" ++ node' ++ "]" := congrArg Symbol.name same
  simpa [← String.toList_inj] using same

theorem isConsistent_ofNodes {nodes : List String} (distinct : nodes.Nodup) :
    (ofNodes nodes : Assembly α).IsConsistent where
  roles := by
    simp only [ofNodes, List.append_nil, List.map_nil]
    exact (distinct.sublist (List.tail_sublist nodes)).map voltageSymbol_injective
  known := knowsRoles_ofNodes nodes
  names := List.nodup_nil
  index := rfl

/-- An indexed name leads to the terminal of that name. -/
theorem IsConsistent.lookup_index (h : a.IsConsistent) {name : String} {i : Nat} :
    a.index.lookup name = some i ↔ ∃ c, a.connections[i]? = some c ∧ c.terminal.name = name := by
  have position : (a.connections.map (·.terminal.name))[i]? = some name ↔
      ∃ c, a.connections[i]? = some c ∧ c.terminal.name = name := by
    rw [List.getElem?_map, Option.map_eq_some_iff]
  have found {i : Nat} (h' : a.index.lookup name = some i) :
      (a.connections.map (·.terminal.name))[i]? = some name := by
    obtain ⟨before, rest, split, -⟩ := List.lookup_eq_some_iff.mp h'
    refine List.mk_mem_zipIdx_iff_getElem?.mp ?_
    rw [← h.index, split]
    exact List.mem_append_right _ List.mem_cons_self
  rw [← position]
  refine ⟨found, fun there => ?_⟩
  -- the name is in the index, and at no other position
  have mem : (name, i) ∈ a.index := by
    rw [h.index]
    exact List.mk_mem_zipIdx_iff_getElem?.mpr there
  obtain ⟨j, lookup⟩ := Option.isSome_iff_exists.mp (List.lookup_isSome_iff.mpr ⟨_, mem, beq_self_eq_true name⟩)
  have inside := (List.getElem?_eq_some_iff.mp there).1
  rw [lookup, (List.getElem?_inj inside h.names).mp (there.trans (found lookup).symm)]

/-- A new symbol has no role. -/
theorem IsConsistent.not_mem_roles (h : a.IsConsistent) {s : Symbol} (new : a.knows s = false) :
    s ∉ a.unknowns ++ a.inputs ++ a.parameters.map (·.symbol) := by
  rw [← h.known s]
  simpa [knows] using new

/-- Stating currents moves no terminal. -/
theorem map_terminal_modify (connections : List (Connection α)) (i : Nat) (value : Expr α) :
    (connections.modify i (·.stating value)).map (·.terminal) = connections.map (·.terminal) := by
  refine List.ext_getElem? fun j => ?_
  rw [List.getElem?_map, List.getElem?_map, List.getElem?_modify]
  cases connections[j]? with
  | none => rfl
  | some c =>
    show some (if i = j then c.stating value else c).terminal = _
    split <;> rfl

theorem names_modify (connections : List (Connection α)) (i : Nat) (value : Expr α) :
    (connections.modify i (·.stating value)).map (·.terminal.name) = connections.map (·.terminal.name) := by
  have same := congrArg (List.map Terminal.name) (map_terminal_modify connections i value)
  rwa [List.map_map, List.map_map] at same

/-- An action that does not fail keeps an assembly consistent. -/
theorem IsConsistent.perform {action : Action α} (h : a.IsConsistent) (performed : Performed a action a') :
    a'.IsConsistent := by
  have known := KnowsRoles.perform h.known performed
  -- a new symbol may be put anywhere
  have insert {before rest : List Symbol} {s : Symbol} (new : s ∉ before ++ rest)
      (distinct : (before ++ rest).Nodup) : (before ++ s :: rest).Nodup :=
    List.perm_middle.nodup_iff.mpr (List.nodup_cons.mpr ⟨new, distinct⟩)
  cases performed with
  | unknown new =>
    refine { h with known := known, roles := ?_ }
    have fresh := h.not_mem_roles new
    have roles := h.roles
    simp only [List.append_assoc, List.singleton_append] at fresh roles ⊢
    exact insert fresh roles
  | input new =>
    refine { h with known := known, roles := ?_ }
    have fresh := h.not_mem_roles new
    have roles := h.roles
    rw [← List.append_assoc, List.append_assoc _ [_], List.singleton_append]
    exact insert fresh roles
  | sameInput _ => exact h
  | parameter new =>
    refine { h with known := known, roles := ?_ }
    have fresh := h.not_mem_roles new
    have roles := h.roles
    rw [List.map_append, ← List.append_assoc, List.map_singleton]
    rw [← List.append_nil (_ ++ List.map _ _)] at fresh roles
    exact insert fresh roles
  | @connect terminal new =>
    have other : terminal.name ∉ a.connections.map (·.terminal.name) := by
      intro there
      obtain ⟨i, there⟩ := List.mem_iff_getElem?.mp there
      rw [List.getElem?_map, Option.map_eq_some_iff] at there
      rw [h.lookup_index.mpr there] at new
      cases new
    refine { h with known := known, names := ?_, index := ?_ }
    · rw [List.map_append, List.map_singleton, List.nodup_append]
      refine ⟨h.names, List.nodup_singleton _, fun name there name' here => ?_⟩
      rintro rfl
      rw [List.mem_singleton.mp here] at there
      exact other there
    · rw [List.map_append, List.zipIdx_append, ← h.index, Nat.zero_add, List.length_map]
      rfl
  | current position unset =>
    refine { h with known := known, names := ?_, index := ?_ }
    · rw [names_modify]
      exact h.names
    · rw [names_modify]
      exact h.index
  | equation => exact { h with }

/-! ## Stated currents -/

/-- An action that does not fail leaves stated currents as they are. -/
theorem Performed.stated {action : Action α} (performed : Performed a action a') {i : Nat} {c : Connection α}
    (there : a.connections[i]? = some c) (stated : c.current?.isSome = true) : a'.connections[i]? = some c := by
  cases performed with
  | connect new =>
    rwa [List.getElem?_append_left (List.getElem?_eq_some_iff.mp there).1]
  | @current _ _ j position unset =>
    rw [List.getElem?_modify, there]
    by_cases same : j = i
    · subst same
      rw [unset c there] at stated
      cases stated
    · simp [same]
  | unknown new | input new | sameInput known | parameter new | equation => exact there

/-! ## Added equations -/

theorem Performed.nodes {action : Action α} (performed : Performed a action a') : a'.nodes = a.nodes := by
  cases performed <;> rfl

theorem Performed.equations {action : Action α} (performed : Performed a action a') :
    a'.equations = a.equations ++ action.added := by
  cases performed with
  | equation => rfl
  | _ => exact (List.append_nil _).symm

theorem equations_run (script : Script α) (a : Assembly α) :
    (script.run a).equations = a.equations ++ script.appended a := by
  induction script generalizing a with
  | stop => exact (List.append_nil _).symm
  | act action next ih =>
    rw [Script.run, Script.appended]
    split
    · next a' performed =>
      rw [ih, (performed_of_perform performed).equations, List.append_assoc]
    · exact ih _ _ _

theorem equations_after (a : Assembly α) (calls : List (Call α)) :
    (a.after calls).equations = a.equations ++ a.appended calls := by
  induction calls generalizing a with
  | nil => exact (List.append_nil _).symm
  | cons call calls ih =>
    show ((call.script.run a).after calls).equations = _
    rw [ih, equations_run, appended, List.append_assoc]

/-! ## What a finished system says -/

/-- What an assembly is after some calls on an assembly without anything but its nodes, now and later. -/
structure Accounts [Scalar α] (a : Assembly α) (nodes : List String) (calls : List (Call α)) : Prop where
  consistent : a.IsConsistent
  /-- The index leads from names to terminals, and to all of them. -/
  index {name : String} {i : Nat} : a.index.lookup name = some i ↔
    ∃ c, a.connections[i]? = some c ∧ c.terminal.name = name
  /-- A stated current never changes. -/
  stated {i : Nat} {c : Connection α} (later : List (Call α)) : a.connections[i]? = some c →
    c.current?.isSome = true → (a.after later).connections[i]? = some c
  /-- The assembly can be finished if and only if all currents are stated, all symbols have a role, and the equations
  that were added and the nodes but ground are as many as the unknowns. The system has the added equations, and after
  them says of every node that the stated currents sum to zero. -/
  finish (system : System α) :
    let laws := (List.range' 1 (nodes.length - 1)).map fun i =>
      (⟨.mkSum ((a.connections.filter (·.terminal.node == ⟨i⟩)).filterMap (·.current?)), .zero⟩ : Equation α)
    let added := (ofNodes nodes).appended calls
    a.finish = .ok system ↔
      (∀ c ∈ a.connections, c.current?.isSome = true) ∧
      (∀ q ∈ added ++ laws, ∀ s, q.lhs.contains s = true ∨ q.rhs.contains s = true →
        s ∈ a.known ∨ s = .time) ∧
      added.length + nodes.tail.length = a.unknowns.length ∧
      system = ⟨a.unknowns, added ++ laws, a.inputs, a.parameters⟩

/-- Whatever the calls are, and whichever of them fail, the assembly accounts for them. -/
theorem accounts_after [Scalar α] {nodes : List String} (distinct : nodes.Nodup) (calls : List (Call α)) :
    ((ofNodes nodes).after calls).Accounts nodes calls := by
  have consistent : ((ofNodes nodes).after calls : Assembly α).IsConsistent :=
    after_invariant (fun _ _ _ performed h => h.perform performed) calls (isConsistent_ofNodes distinct)
  have same : ((ofNodes nodes).after calls : Assembly α).nodes = nodes :=
    after_invariant (P := fun a => a.nodes = nodes) (fun _ _ _ performed h => performed.nodes.trans h) calls rfl
  constructor
  case consistent => exact consistent
  case index => exact consistent.lookup_index
  case stated =>
    intro i c later there stated
    exact after_invariant (P := fun a => a.connections[i]? = some c)
      (fun _ _ _ performed h => performed.stated h stated) later there
  case finish =>
    intro system laws added
    have equations : ((ofNodes nodes).after calls : Assembly α).equations ++
        ((ofNodes nodes).after calls).nodeEquations = added ++ laws := by
      rw [equations_after, nodeEquations, same, List.range_eq_range', List.tail_range']
      rfl
    have count : (added ++ laws).length = added.length + nodes.tail.length := by simp [laws]
    have closed : (∀ s ∈ symbolsOf (added ++ laws), ((ofNodes nodes).after calls).knows s = true ∨ s = .time) ↔
        ∀ q ∈ added ++ laws, ∀ s, q.lhs.contains s = true ∨ q.rhs.contains s = true →
          s ∈ ((ofNodes nodes).after calls).known ∨ s = .time := by
      simp only [mem_symbolsOf, knows, List.contains_iff_mem]
      constructor
      · intro h q hq s hs
        exact h s ⟨q, hq, hs⟩
      · rintro h s ⟨q, hq, hs⟩
        exact h q hq s hs
    rw [finish_eq_ok_iff, equations, count, closed]
    constructor
    · rintro ⟨result, stated, known, square⟩
      exact ⟨stated, known, square, result⟩
    · rintro ⟨stated, known, square, result⟩
      exact ⟨result, stated, known, square⟩

/-- A resistor whose first terminal is connected twice, which fails, and whose second terminal is an element that states
its current twice, which fails too and makes it stop; the missing current is stated in the end. -/
def interrupted : List (Call ℚ) :=
  let p : Terminal := ⟨"R", "p", ⟨1⟩⟩
  let n : Terminal := ⟨"R", "n", ⟨2⟩⟩
  let drop := Expr.named "V[in]" - Expr.named "V[out]"
  [.action (.input "signal"), .action (.unknown "V[in]"), .element [p, p] .stop,
    .element [n] (.act (.current n (-drop)) fun _ _ => .act (.current n drop) fun
      | some _, _ => .stop
      | none, _ => .act (.unknown "y") fun _ _ => .stop),
    .action (.unknown "x"), .action (.equation (.named "x") (.named "signal")), .action (.current p drop)]

theorem accounts_interrupted :
    ((ofNodes ["0", "in", "out"]).after interrupted).finish.toOption.map
        (fun system => (system.unknowns.map (·.name), system.equations.length)) =
        some (["V[in]", "V[out]", "x"], 3) ∧
      ((ofNodes ["0", "in", "out"]).after interrupted).Accounts ["0", "in", "out"] interrupted :=
  ⟨by decide +kernel, accounts_after (by decide) interrupted⟩

end Assembly

end AnalogCircuit
