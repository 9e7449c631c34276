import AnalogCircuit.Proofs.Occurrence
import AnalogCircuit.Circuit.Basic
/-!
# What an assembly does

An action that does not fail changes one field of an assembly, and new symbols are symbols that had no role. What
every action keeps is kept by a run of actions. A finished system has as many equations as unknowns, and mentions
the symbols of the assembly and the time only.
-/

namespace AnalogCircuit

variable {α : Type}

/-! ## Symbols of equations -/

namespace Expr

variable {s t : Symbol}

theorem mem_insertSymbol {ss : List Symbol} : t ∈ insertSymbol s ss ↔ t = s ∨ t ∈ ss := by
  induction ss with
  | nil => simp [insertSymbol]
  | cons x ss ih =>
    rw [insertSymbol]
    split
    · rw [List.mem_cons]
    · next same =>
      rw [Symbol.order_eq_iff.mp same, List.mem_cons]
      exact ⟨.inr, fun h => h.elim .inl id⟩
    · rw [List.mem_cons, ih, List.mem_cons, or_left_comm]

theorem mem_foldl_insertSymbol {new old : List Symbol} :
    t ∈ new.foldl (fun out s => insertSymbol s out) old ↔ t ∈ new ∨ t ∈ old := by
  induction new generalizing old with
  | nil => simp
  | cons s new ih =>
    rw [List.foldl_cons, ih, mem_insertSymbol, List.mem_cons, or_left_comm, or_assoc]

/-- The symbols that occur are those that the expression contains. -/
theorem mem_occurrences {e : Expr α} : s ∈ e.occurrences ↔ e.contains s = true := by
  have list {es : List (Expr α)} (ih : ∀ e ∈ es, s ∈ e.occurrences ↔ e.contains s = true) :
      s ∈ (nodesList es).filterMap symbol? ↔ dependsOnList (· == s) es = true := by
    rw [nodesList_eq_flatMap, List.filterMap_flatMap, List.mem_flatMap, ← Bool.not_eq_false,
      dependsOnList_eq_false_iff]
    simp only [not_forall, Bool.not_eq_false]
    exact ⟨fun ⟨e, he, h⟩ => ⟨e, he, (ih e he).mp h⟩, fun ⟨e, he, h⟩ => ⟨e, he, (ih e he).mpr h⟩⟩
  induction e with
  | num v => simp [occurrences, nodes, symbol?, contains, dependsOn]
  | sym t =>
    show s ∈ [t] ↔ (t == s) = true
    rw [List.mem_singleton, beq_iff_eq, eq_comm]
  | sum es ih | product es ih | call _ es ih | apply _ es ih => exact list ih
  | power a b ha hb | compare _ a b ha hb =>
    rw [contains, dependsOn, Bool.or_eq_true, occurrences, nodes, List.filterMap_cons_none rfl,
      List.filterMap_append, List.mem_append]
    exact or_congr ha hb
  | select c a b hc ha hb =>
    rw [contains, dependsOn, Bool.or_eq_true, Bool.or_eq_true, occurrences, nodes,
      List.filterMap_cons_none rfl, List.filterMap_append, List.filterMap_append, List.mem_append,
      List.mem_append]
    exact or_congr hc (or_congr ha hb)
  | derivative x t ih | integral x t ih => exact ih

theorem mem_symbols {e : Expr α} : s ∈ e.symbols ↔ e.contains s = true := by
  rw [symbols, mem_foldl_insertSymbol, mem_occurrences]
  simp

end Expr

namespace Assembly

variable {a a' : Assembly α}

theorem mem_symbolsOf [Scalar α] {equations : List (Equation α)} {s : Symbol} :
    s ∈ symbolsOf equations ↔
      ∃ q ∈ equations, q.lhs.contains s = true ∨ q.rhs.contains s = true := by
  rw [symbolsOf, Expr.mem_foldl_insertSymbol, List.mem_flatMap]
  simp only [List.not_mem_nil, or_false, List.mem_append, Expr.mem_symbols]

/-! ## One action -/

/-- What an action does to an assembly if it does not fail. -/
inductive Performed (a : Assembly α) : Action α → Assembly α → Prop
  | unknown {name : String} (new : a.knows (.named name) = false) :
      Performed a (.unknown name)
        { a with known := a.known ++ [.named name], unknowns := a.unknowns ++ [.named name] }
  | input {name : String} (new : a.knows (.named name) = false) :
      Performed a (.input name)
        { a with known := a.known ++ [.named name], inputs := a.inputs ++ [.named name] }
  | sameInput {name : String} (known : .named name ∈ a.inputs) : Performed a (.input name) a
  | parameter {name : String} {default : α} (new : a.knows (.named name) = false) :
      Performed a (.parameter name default)
        { a with known := a.known ++ [.named name], parameters := a.parameters ++ [⟨.named name, default⟩] }
  | connect {terminal : Terminal} (new : a.index.lookup terminal.name = none) :
      Performed a (.connect terminal)
        { a with
          index := a.index ++ [(terminal.name, a.connections.length)]
          connections := a.connections ++ [⟨terminal, none⟩] }
  | current {terminal : Terminal} {value : Expr α} {i : Nat}
      (position : a.index.lookup terminal.name = some i)
      (unset : ∀ c, a.connections[i]? = some c → c.current? = none) :
      Performed a (.current terminal value)
        { a with connections := a.connections.modify i (·.stating value) }
  | equation {lhs rhs : Expr α} :
      Performed a (.equation lhs rhs) { a with equations := a.equations ++ [⟨lhs, rhs⟩] }

theorem performed_of_perform {action : Action α} (h : a.perform action = .ok a') :
    Performed a action a' := by
  cases action with
  | unknown name =>
    dsimp only [perform] at h
    split at h
    · cases h
    · next new => cases h; exact .unknown (by simpa using new)
  | input name =>
    dsimp only [perform] at h
    split at h
    · next known => cases h; exact .sameInput (List.contains_iff_mem.mp known)
    split at h
    · cases h
    · next new => cases h; exact .input (by simpa using new)
  | parameter name default =>
    dsimp only [perform] at h
    split at h
    · cases h
    · next new => cases h; exact .parameter (by simpa using new)
  | connect terminal =>
    dsimp only [perform] at h
    split at h
    · cases h
    · next new => cases h; exact .connect (Option.not_isSome_iff_eq_none.mp new)
  | current terminal value =>
    dsimp only [perform] at h
    split at h
    · cases h
    next i position =>
    split at h
    · cases h
    · next unset =>
      cases h
      refine .current position fun c found => ?_
      simpa [found] using unset
  | equation lhs rhs =>
    dsimp only [perform] at h
    cases h
    exact .equation

/-! ## Known symbols -/

/-- The symbols that are unknowns, inputs or parameters. -/
def roles (a : Assembly α) : List Symbol := a.unknowns ++ a.inputs ++ a.parameters.map (·.symbol)

/-- The known symbols are those that have a role. -/
def KnowsRoles (a : Assembly α) : Prop := ∀ s, s ∈ a.known ↔ s ∈ a.roles

theorem knowsRoles_ofNodes (nodes : List String) : (ofNodes nodes : Assembly α).KnowsRoles := by
  intro s
  simp [ofNodes, roles]

/-- An action that gives a role to a symbol makes it known. -/
theorem KnowsRoles.perform {action : Action α} (h : a.KnowsRoles) (performed : Performed a action a') :
    a'.KnowsRoles := by
  intro s
  have := h s
  cases performed with
  | unknown new | input new | parameter new => simp_all [roles, or_comm, or_left_comm]
  | sameInput known | connect new | current position unset | equation => exact this

/-- A symbol without a role is neither an unknown nor an input nor a parameter. -/
theorem KnowsRoles.knows_eq_false_iff (h : a.KnowsRoles) {s : Symbol} : a.knows s = false ↔
    s ∉ a.unknowns ∧ s ∉ a.inputs ∧ a.parameters.any (·.symbol == s) = false := by
  rw [knows, ← Bool.not_eq_true, List.contains_iff_mem, h s, ← Bool.not_eq_true, List.any_eq_true]
  simp [roles]

/-! ## Runs of actions -/

/-- What each action keeps, a run of them keeps, also if it ends at an action that fails. -/
theorem performAll_invariant {P : Assembly α → Prop} {actions : List (Action α)}
    (step : ∀ action ∈ actions, ∀ a a', Performed a action a' → P a → P a') (start : P a) :
    P (a.performAll actions).1 := by
  induction actions generalizing a with
  | nil => exact start
  | cons action actions ih =>
    obtain ⟨first, rest⟩ := List.forall_mem_cons.mp step
    rw [performAll]
    split
    · next a' performed => exact ih rest (first a a' (performed_of_perform performed) start)
    · exact start

/-- What one of the actions establishes and all of them keep holds in the end if none fails. -/
theorem performAll_establishes {P : Assembly α → Prop} {actions : List (Action α)} {action : Action α}
    (sets : ∀ a a', Performed a action a' → P a')
    (step : ∀ action ∈ actions, ∀ a a', Performed a action a' → P a → P a') (mem : action ∈ actions)
    (done : a.performAll actions = (a', none)) : P a' := by
  induction actions generalizing a with
  | nil => exact absurd mem List.not_mem_nil
  | cons first actions ih =>
    obtain ⟨-, rest⟩ := List.forall_mem_cons.mp step
    rw [performAll] at done
    split at done
    · next b performed =>
      rcases List.mem_cons.mp mem with rfl | mem
      · have kept := performAll_invariant rest (sets _ _ (performed_of_perform performed))
        rwa [done] at kept
      · exact ih rest mem done
    · cases done

/-- If no action fails, every declared parameter is there in the end. -/
theorem mem_parameters_of_performAll {actions : List (Action α)} {name : String} {default : α}
    (done : a.performAll actions = (a', none)) (mem : .parameter name default ∈ actions) :
    ⟨.named name, default⟩ ∈ a'.parameters := by
  refine performAll_establishes (P := fun a => ⟨.named name, default⟩ ∈ a.parameters)
    (fun a a' performed => ?_) (fun action _ a a' performed kept => ?_) mem done
  · cases performed with
    | parameter new => exact List.mem_append_right _ List.mem_cons_self
  · cases performed with
    | parameter new => exact List.mem_append_left _ kept
    | _ => exact kept

/-- If no action fails, every declared input is there in the end. -/
theorem mem_inputs_of_performAll {actions : List (Action α)} {name : String}
    (done : a.performAll actions = (a', none)) (mem : .input name ∈ actions) : .named name ∈ a'.inputs := by
  refine performAll_establishes (P := fun a => .named name ∈ a.inputs)
    (fun a a' performed => ?_) (fun action _ a a' performed kept => ?_) mem done
  · cases performed with
    | input new => exact List.mem_append_right _ List.mem_cons_self
    | sameInput known => exact known
  · cases performed with
    | input new => exact List.mem_append_left _ kept
    | _ => exact kept

/-! ## The finished system -/

/-- An assembly is finished if and only if all currents are stated, the equations mention symbols with a role and the
time only, and there are as many of them as unknowns. -/
theorem finish_eq_ok_iff [Scalar α] {system : System α} : a.finish = .ok system ↔
    system = ⟨a.unknowns, a.equations ++ a.nodeEquations, a.inputs, a.parameters⟩ ∧
      (∀ c ∈ a.connections, c.current?.isSome = true) ∧
      (∀ s ∈ symbolsOf (a.equations ++ a.nodeEquations), a.knows s = true ∨ s = .time) ∧
      (a.equations ++ a.nodeEquations).length = a.unknowns.length := by
  have stated : a.connections.find? (·.current?.isNone) = none ↔
      ∀ c ∈ a.connections, c.current?.isSome = true := by
    simp [List.find?_eq_none, Option.isSome_iff_ne_none]
  have closed : (symbolsOf (a.equations ++ a.nodeEquations)).find? (fun s => !a.knows s && s != .time) = none ↔
      ∀ s ∈ symbolsOf (a.equations ++ a.nodeEquations), a.knows s = true ∨ s = .time := by
    simp only [List.find?_eq_none, Bool.and_eq_true, Bool.not_eq_true', bne_iff_ne, ne_eq, not_and, not_not,
      ← Bool.not_eq_true]
    exact forall₂_congr fun s _ => or_iff_not_imp_left.symm
  rw [← stated, ← closed]
  unfold finish
  split
  · next c found => simp [found]
  next found =>
  dsimp only
  split
  · next s undefined => simp [undefined]
  next defined =>
  rw [and_iff_right found, and_iff_right defined]
  split
  · next few => exact iff_of_false nofun fun h => Nat.ne_of_lt few h.2
  split
  · next many => exact iff_of_false nofun fun h => Nat.ne_of_gt many h.2
  · next enough few =>
    rw [and_iff_left (Nat.le_antisymm (Nat.le_of_not_lt few) (Nat.le_of_not_lt enough)), Except.ok.injEq, eq_comm]

end Assembly

/-- The equations of a circuit are what its actions assemble, none of which fails. -/
theorem Circuit.exists_of_equations [Scalar α] {c : Circuit α} {system : System α} (h : c.equations = .ok system) :
    ∃ a, (Assembly.ofNodes c.nodes).performAll c.actions = (a, none) ∧ a.finish = .ok system := by
  unfold Circuit.equations at h
  split at h
  · next a performed => exact ⟨a, performed, h⟩
  · cases h

end AnalogCircuit
