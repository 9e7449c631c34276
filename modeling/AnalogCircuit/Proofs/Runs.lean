import AnalogCircuit.Proofs.Calls
/-!
# Runs of actions

What a run of actions adds to an assembly can be read off the actions, and an action is refused only for the names in
it. So if the actions are compatible with each other, a run of them ends, unless it comes to a name that is both an
input and a parameter.
-/

namespace AnalogCircuit

variable {α : Type}

/-! ## What an action is about -/

namespace Action

/-- The unknown that an action introduces, if it is such an action. -/
def introduced : Action α → List Symbol
  | .unknown name => [.named name]
  | _ => []

/-- The input that an action declares, if it is such an action. -/
def signals : Action α → List Symbol
  | .input name => [.named name]
  | _ => []

/-- The parameter that an action declares, if it is such an action. -/
def declared : Action α → List (Parameter α)
  | .parameter name default => [⟨.named name, default⟩]
  | _ => []

/-- The terminal that an action connects, if it is such an action. -/
def connected : Action α → List Terminal
  | .connect terminal => [terminal]
  | _ => []

/-- The terminal whose current an action states, with that current, if it is such an action. -/
def stated : Action α → List (Connection α)
  | .current terminal value => [⟨terminal, some value⟩]
  | _ => []

theorem isSome_of_mem_stated {actions : List (Action α)} {c : Connection α} (h : c ∈ actions.flatMap (·.stated)) :
    c.current?.isSome = true := by
  obtain ⟨action, -, h⟩ := List.mem_flatMap.mp h
  cases action with
  | current => rw [List.mem_singleton.mp h]; rfl
  | _ => cases h

end Action

namespace Assembly

variable {a a' a'' : Assembly α} {actions actions' : List (Action α)}

/-- Inputs with a declared one, which may be one of them. -/
def declareInput (inputs : List Symbol) (s : Symbol) : List Symbol := if s ∈ inputs then inputs else inputs ++ [s]

/-- The assembly `a'` is what `a` becomes if all of the actions succeed. -/
structure Extends (a : Assembly α) (actions : List (Action α)) (a' : Assembly α) : Prop where
  nodes : a'.nodes = a.nodes
  unknowns : a'.unknowns = a.unknowns ++ actions.flatMap (·.introduced)
  inputs : a'.inputs = (actions.flatMap (·.signals)).foldl declareInput a.inputs
  parameters : a'.parameters = a.parameters ++ actions.flatMap (·.declared)
  equations : a'.equations = a.equations ++ actions.flatMap (·.added)
  terminals : a'.connections.map (·.terminal) = a.connections.map (·.terminal) ++ actions.flatMap (·.connected)
  /-- Stated currents stay. -/
  kept : ∀ c ∈ a.connections, c.current?.isSome = true → c ∈ a'.connections
  /-- What the actions state is there. -/
  currents : ∀ c ∈ actions.flatMap (·.stated), ∃ c' ∈ a'.connections,
    c'.terminal.name = c.terminal.name ∧ c'.current? = c.current?
  /-- What is stated was stated before or by the actions. -/
  sources : ∀ c ∈ a'.connections, c.current?.isSome = true →
    c ∈ a.connections ∨ c.terminal.name ∈ (actions.flatMap (·.stated)).map (·.terminal.name)

namespace Extends

theorem refl (a : Assembly α) : a.Extends [] a where
  nodes := rfl
  unknowns := (List.append_nil _).symm
  inputs := rfl
  parameters := (List.append_nil _).symm
  equations := (List.append_nil _).symm
  terminals := (List.append_nil _).symm
  kept _ mem _ := mem
  currents := nofun
  sources _ mem _ := .inl mem

theorem trans (h : a.Extends actions a') (h' : a'.Extends actions' a'') : a.Extends (actions ++ actions') a'' where
  nodes := h'.nodes.trans h.nodes
  unknowns := by rw [h'.unknowns, h.unknowns, List.flatMap_append, List.append_assoc]
  inputs := by rw [h'.inputs, h.inputs, List.flatMap_append, List.foldl_append]
  parameters := by rw [h'.parameters, h.parameters, List.flatMap_append, List.append_assoc]
  equations := by rw [h'.equations, h.equations, List.flatMap_append, List.append_assoc]
  terminals := by rw [h'.terminals, h.terminals, List.flatMap_append, List.append_assoc]
  kept c mem stated := h'.kept c (h.kept c mem stated) stated
  currents := by
    rw [List.flatMap_append]
    refine List.forall_mem_append.mpr ⟨fun c hc => ?_, h'.currents⟩
    obtain ⟨c', mem, name, current⟩ := h.currents c hc
    exact ⟨c', h'.kept c' mem (current ▸ Action.isSome_of_mem_stated hc), name, current⟩
  sources c mem stated := by
    rw [List.flatMap_append, List.map_append, List.mem_append]
    rcases h'.sources c mem stated with mem | there
    · exact (h.sources c mem stated).imp_right .inl
    · exact .inr (.inr there)

end Extends

theorem Performed.toExtends {action : Action α} (consistent : a.IsConsistent) (performed : Performed a action a') :
    a.Extends [action] a' := by
  have base := Extends.refl a
  cases performed with
  | unknown new => exact { base with unknowns := rfl }
  | @input name new =>
    refine { base with inputs := ?_ }
    have other : .named name ∉ a.inputs := fun there =>
      consistent.not_mem_roles new (List.mem_append_left _ (List.mem_append_right _ there))
    exact (if_neg other).symm
  | sameInput known => exact { base with inputs := (if_pos known).symm }
  | parameter new => exact { base with parameters := rfl }
  | connect new =>
    refine { base with terminals := List.map_append, kept := ?_, currents := nofun, sources := ?_ }
    · intro c mem _
      exact List.mem_append_left _ mem
    intro c mem stated
    rcases List.mem_append.mp mem with mem | mem
    · exact .inl mem
    · rw [List.mem_singleton.mp mem] at stated
      cases stated
  | @current terminal value i position unset =>
    obtain ⟨c, there, name⟩ := consistent.lookup_index.mp position
    have set : (a.connections.modify i (·.stating value))[i]? = some (c.stating value) := by
      simp [there]
    refine { base with terminals := ?_, kept := ?_, currents := ?_, sources := ?_ }
    · rw [map_terminal_modify]
      exact base.terminals
    · intro c' mem stated
      obtain ⟨j, place⟩ := List.mem_iff_getElem?.mp mem
      refine List.mem_iff_getElem?.mpr ⟨j, ?_⟩
      exact Performed.stated (.current position unset) place stated
    · intro c' hc'
      rw [List.mem_singleton.mp hc']
      exact ⟨_, List.mem_of_getElem? set, name, rfl⟩
    · intro c' mem _
      obtain ⟨j, place⟩ := List.mem_iff_getElem?.mp mem
      by_cases same : i = j
      · subst same
        cases set.symm.trans place
        exact .inr (List.mem_singleton.mpr name)
      · exact .inl (List.mem_of_getElem? ((List.getElem?_modify_ne _ _ same).symm.trans place))
  | equation => exact { base with equations := rfl }

/-! ## Runs -/

theorem isConsistent_performAll (h : a.IsConsistent) (actions : List (Action α)) :
    (a.performAll actions).1.IsConsistent :=
  performAll_invariant (fun _ _ _ _ performed h => h.perform performed) h

/-- A run that ends has done all actions. -/
theorem extends_of_performAll (consistent : a.IsConsistent) (done : a.performAll actions = (a', none)) :
    a.Extends actions a' := by
  induction actions generalizing a with
  | nil => cases done; exact .refl _
  | cons action actions ih =>
    rw [performAll] at done
    split at done
    · next b performed =>
      have performed := performed_of_perform performed
      exact (performed.toExtends consistent).trans (ih (consistent.perform performed) done)
    · cases done

/-- A run that does not end has come to an action that is refused. -/
theorem refused_of_performAll {e : Error} (failed : a.performAll actions = (a', some e)) :
    ∃ before action rest, actions = before ++ action :: rest ∧ a.performAll before = (a', none) ∧
      a'.perform action = .error e := by
  induction actions generalizing a with
  | nil => cases failed
  | cons action actions ih =>
    rw [performAll] at failed
    split at failed
    · next b performed =>
      obtain ⟨before, action', rest, rfl, done, refused⟩ := ih failed
      refine ⟨action :: before, action', rest, rfl, ?_, refused⟩
      rw [performAll, performed]
      exact done
    · next e' refused =>
      cases failed
      exact ⟨[], action, actions, rfl, rfl, refused⟩

/-- Why a consistent assembly refuses an action. -/
inductive Refused (a : Assembly α) : Action α → Error → Prop
  | unknown {name : String} (taken : .named name ∈ a.roles) : Refused a (.unknown name) (.duplicateUnknown name)
  | input {name : String} (taken : .named name ∈ a.roles) (other : .named name ∉ a.inputs) :
      Refused a (.input name) (.duplicateDefinition name)
  | parameter {name : String} {default : α} (taken : .named name ∈ a.roles) :
      Refused a (.parameter name default) (.duplicateDefinition name)
  | connect {terminal : Terminal} (taken : terminal.name ∈ a.connections.map (·.terminal.name)) :
      Refused a (.connect terminal) (.duplicateComponent terminal.name)
  | unconnected {terminal : Terminal} {value : Expr α} {e : Error}
      (missing : terminal.name ∉ a.connections.map (·.terminal.name)) : Refused a (.current terminal value) e
  | restated {terminal : Terminal} {value : Expr α} {c : Connection α} (there : c ∈ a.connections)
      (name : c.terminal.name = terminal.name) (stated : c.current?.isSome = true) :
      Refused a (.current terminal value) (.currentReassigned terminal.name)

theorem refused_of_perform (consistent : a.IsConsistent) {action : Action α} {e : Error}
    (h : a.perform action = .error e) : Refused a action e := by
  have role {s : Symbol} (known : a.knows s = true) : s ∈ a.roles :=
    (consistent.known s).mp (List.contains_iff_mem.mp known)
  cases action with
  | unknown name =>
    dsimp only [perform] at h
    split at h
    · next known => cases h; exact .unknown (role known)
    · cases h
  | input name =>
    dsimp only [perform] at h
    split at h
    · cases h
    next other =>
    split at h
    · next known => cases h; exact .input (role known) (by simpa using other)
    · cases h
  | parameter name default =>
    dsimp only [perform] at h
    split at h
    · next known => cases h; exact .parameter (role known)
    · cases h
  | connect terminal =>
    dsimp only [perform] at h
    split at h
    · next taken =>
      cases h
      obtain ⟨i, position⟩ := Option.isSome_iff_exists.mp taken
      obtain ⟨c, there, name⟩ := consistent.lookup_index.mp position
      exact .connect (name ▸ List.mem_map_of_mem (List.mem_of_getElem? there))
    · cases h
  | current terminal value =>
    dsimp only [perform] at h
    split at h
    · next missing =>
      refine .unconnected fun there => ?_
      obtain ⟨c, there, name⟩ := List.mem_map.mp there
      obtain ⟨i, place⟩ := List.mem_iff_getElem?.mp there
      rw [consistent.lookup_index.mpr ⟨c, place, name⟩] at missing
      cases missing
    next i position =>
    obtain ⟨c, there, name⟩ := consistent.lookup_index.mp position
    split at h
    · next stated =>
      cases h
      rw [there] at stated
      exact .restated (List.mem_of_getElem? there) name stated
    · cases h
  | equation lhs rhs => cases h

/-! ## Compatible actions -/

/-- The terminals are connected before their currents are stated. -/
def Ordered (actions : List (Action α)) : Prop :=
  ∀ before terminal value rest, actions = before ++ .current terminal value :: rest →
    terminal ∈ before.flatMap (·.connected)

theorem Ordered.append (h : Ordered actions) (h' : Ordered actions') : Ordered (actions ++ actions') := by
  intro before t v rest split
  rcases List.append_eq_append_iff.mp split with ⟨m, rfl, here⟩ | ⟨m, here, there⟩
  · rw [List.flatMap_append]
    exact List.mem_append_right _ (h' m t v rest here)
  · cases m with
    | nil => exact absurd (h' [] t v rest there.symm) List.not_mem_nil
    | cons action m =>
      obtain ⟨rfl, -⟩ := List.cons_eq_cons.mp there
      exact h before t v m here

theorem Ordered.flatMap {β : Type} {f : β → List (Action α)} {l : List β} (h : ∀ x ∈ l, Ordered (f x)) :
    Ordered (l.flatMap f) := by
  induction l with
  | nil => intro before t v rest split; cases before <;> cases split
  | cons x l ih =>
    obtain ⟨first, rest⟩ := List.forall_mem_cons.mp h
    exact first.append (ih rest)

/-- Actions on an assembly over some nodes that do not get into each other's way: the unknowns are different, and no
inputs or parameters; the parameters are different; the terminals are different, and the current of each is stated once,
in their order. -/
structure Compatible (nodes : List String) (actions : List (Action α)) : Prop where
  unknowns : (nodes.tail.map voltageSymbol ++ actions.flatMap (·.introduced)).Nodup
  apart : ∀ s ∈ nodes.tail.map voltageSymbol ++ actions.flatMap (·.introduced),
    s ∉ actions.flatMap (·.signals) ∧ s ∉ (actions.flatMap (·.declared)).map (·.symbol)
  parameters : ((actions.flatMap (·.declared)).map (·.symbol)).Nodup
  terminals : ((actions.flatMap (·.connected)).map (·.name)).Nodup
  stated : (actions.flatMap (·.stated)).map (·.terminal) = actions.flatMap (·.connected)
  ordered : Ordered actions

theorem mem_declareInput {inputs : List Symbol} {s t : Symbol} : t ∈ declareInput inputs s ↔ t ∈ inputs ∨ t = s := by
  unfold declareInput
  split
  · next there => exact ⟨.inl, fun h => h.elim id (· ▸ there)⟩
  · simp

theorem mem_foldl_declareInput {inputs signals : List Symbol} {s : Symbol} :
    s ∈ signals.foldl declareInput inputs ↔ s ∈ inputs ∨ s ∈ signals := by
  induction signals generalizing inputs with
  | nil => simp
  | cons t signals ih => rw [List.foldl_cons, ih, mem_declareInput, List.mem_cons, or_assoc]

variable {nodes : List String}

/-- What the actions add is all different, so what one adds was not there before. -/
theorem not_mem_of_nodup_flatMap {β : Type} {f : Action α → List β} (start : List β) {before rest : List (Action α)}
    {action : Action α} {x : β} (distinct : (start ++ (before ++ action :: rest).flatMap f).Nodup)
    (new : x ∈ f action) : x ∉ start ++ before.flatMap f := by
  rw [List.flatMap_append, List.flatMap_cons, ← List.append_assoc] at distinct
  intro earlier
  exact (List.nodup_append.mp distinct).2.2 x earlier x (List.mem_append_left _ new) rfl

/-- What has a role in the end is the voltage of a node, or was given its role by the actions. -/
theorem Extends.role (grown : (ofNodes nodes).Extends actions a) {s : Symbol} (taken : s ∈ a.roles) :
    s ∈ nodes.tail.map voltageSymbol ++ actions.flatMap (·.introduced) ∨ s ∈ actions.flatMap (·.signals) ∨
      s ∈ actions.flatMap fun action => action.declared.map (·.symbol) := by
  rw [roles, grown.unknowns, grown.inputs, grown.parameters, List.mem_append, List.mem_append, or_assoc] at taken
  rw [← List.map_flatMap]
  refine taken.imp_right (Or.imp_left fun taken => ?_)
  exact (mem_foldl_declareInput.mp taken).resolve_left List.not_mem_nil

theorem Extends.names (grown : (ofNodes nodes).Extends actions a) :
    a.connections.map (·.terminal.name) = actions.flatMap fun action => action.connected.map (·.name) := by
  have same := congrArg (List.map Terminal.name) grown.terminals
  rw [List.map_map] at same
  exact same.trans List.map_flatMap

/-- The symbol is to be both an input and a parameter. -/
def Clash (actions : List (Action α)) (s : Symbol) : Prop :=
  s ∈ actions.flatMap (·.signals) ∧ s ∈ (actions.flatMap (·.declared)).map (·.symbol)

/-- After some of the compatible actions, the next one is refused only for a name that is both an input and a
parameter. -/
theorem Compatible.clash_of_refused {before rest : List (Action α)} {action : Action α} {e : Error}
    (h : Compatible nodes (before ++ action :: rest)) (grown : (ofNodes nodes).Extends before a)
    (refused : Refused a action e) :
    ∃ name, e = .duplicateDefinition name ∧ Clash (before ++ action :: rest) (.named name) := by
  have earlier {β : Type} (f : Action α → List β) {x : β} (mem : x ∈ before.flatMap f) :
      x ∈ (before ++ action :: rest).flatMap f := by
    rw [List.flatMap_append]
    exact List.mem_append_left _ mem
  have now {β : Type} (f : Action α → List β) {x : β} (mem : x ∈ f action) :
      x ∈ (before ++ action :: rest).flatMap f :=
    List.mem_flatMap.mpr ⟨action, by simp, mem⟩
  have role {s : Symbol} (taken : s ∈ a.roles) := grown.role taken
  have unknown {s : Symbol} (taken : s ∈ nodes.tail.map voltageSymbol ++ before.flatMap (·.introduced)) :
      s ∈ nodes.tail.map voltageSymbol ++ (before ++ action :: rest).flatMap (·.introduced) :=
    (List.mem_append.mp taken).elim (List.mem_append_left _) fun taken => List.mem_append_right _ (earlier _ taken)
  have names := grown.names
  obtain ⟨unknowns, apart, parameters, terminals, stated, ordered⟩ := h
  unfold Clash
  rw [List.map_flatMap] at *
  cases refused with
  | @unknown name taken =>
    obtain ⟨signal, parameter⟩ := apart (.named name) (List.mem_append_right _ (now _ List.mem_cons_self))
    rcases role taken with taken | taken | taken
    · exact absurd taken (not_mem_of_nodup_flatMap _ unknowns List.mem_cons_self)
    · exact absurd (earlier _ taken) signal
    · exact absurd (earlier _ taken) parameter
  | @input name taken other =>
    refine ⟨name, rfl, now _ List.mem_cons_self, ?_⟩
    rcases role taken with taken | taken | taken
    · exact absurd (now _ List.mem_cons_self) (apart _ (unknown taken)).1
    · rw [grown.inputs, mem_foldl_declareInput] at other
      exact absurd (.inr taken) other
    · exact earlier _ taken
  | @parameter name default taken =>
    have parameter : .named name ∈ (before ++ .parameter name default :: rest).flatMap
        fun action => action.declared.map (·.symbol) := now _ List.mem_cons_self
    refine ⟨name, rfl, ?_, parameter⟩
    rcases role taken with taken | taken | taken
    · exact absurd parameter (apart _ (unknown taken)).2
    · exact earlier _ taken
    · exact absurd taken (not_mem_of_nodup_flatMap [] parameters List.mem_cons_self)
  | @connect terminal taken =>
    rw [names] at taken
    exact absurd taken (not_mem_of_nodup_flatMap [] terminals List.mem_cons_self)
  | @unconnected terminal value e missing =>
    refine absurd ?_ missing
    rw [names, ← List.map_flatMap]
    exact List.mem_map_of_mem (ordered before terminal value rest rfl)
  | @restated terminal value c there name again =>
    have once : ((before ++ .current terminal value :: rest).flatMap
        fun action => action.stated.map (·.terminal.name)).Nodup := by
      have same := congrArg (List.map Terminal.name) stated
      rw [List.map_flatMap, List.map_flatMap] at same
      simp only [List.map_map] at same
      exact same ▸ terminals
    have taken := (grown.sources c there again).resolve_left List.not_mem_nil
    rw [List.map_flatMap, name] at taken
    exact absurd taken (not_mem_of_nodup_flatMap [] once List.mem_cons_self)

/-- A run of compatible actions ends, or it comes to a name that is both an input and a parameter. -/
theorem Compatible.performAll (h : Compatible nodes actions) (distinct : nodes.Nodup) :
    (∃ a' : Assembly α, (ofNodes nodes).performAll actions = (a', none)) ∨
      ∃ (a' : Assembly α) (name : String),
        (ofNodes nodes).performAll actions = (a', some (.duplicateDefinition name)) ∧ Clash actions (.named name) := by
  have start : (ofNodes nodes : Assembly α).IsConsistent := isConsistent_ofNodes distinct
  cases result : (ofNodes nodes).performAll actions with
  | mk a' e? =>
    cases e? with
    | none => exact .inl ⟨a', rfl⟩
    | some e =>
      obtain ⟨before, action, rest, rfl, done, failed⟩ := refused_of_performAll result
      have consistent := isConsistent_performAll start before
      rw [done] at consistent
      obtain ⟨name, rfl, clash⟩ :=
        h.clash_of_refused (extends_of_performAll start done) (refused_of_perform consistent failed)
      exact .inr ⟨a', name, rfl, clash⟩

/-- A run of actions with a clash does not end. -/
theorem not_clash_of_performAll (distinct : nodes.Nodup) (done : (ofNodes nodes).performAll actions = (a', none))
    (s : Symbol) : ¬ Clash actions s := by
  have start : (ofNodes nodes : Assembly α).IsConsistent := isConsistent_ofNodes distinct
  have consistent := isConsistent_performAll start actions
  have grown := extends_of_performAll start done
  rw [done] at consistent
  rintro ⟨signal, parameter⟩
  have roles := consistent.roles
  rw [grown.inputs, grown.parameters] at roles
  refine (List.nodup_append.mp roles).2.2 _ (List.mem_append_right _ ?_) _ parameter rfl
  exact mem_foldl_declareInput.mpr (.inr signal)

/-- In the end the connections are the stated currents in their order. -/
theorem Compatible.connections (h : Compatible nodes actions) (distinct : nodes.Nodup)
    (done : (ofNodes nodes).performAll actions = (a', none)) :
    a'.connections = actions.flatMap (·.stated) := by
  have start : (ofNodes nodes : Assembly α).IsConsistent := isConsistent_ofNodes distinct
  have consistent := isConsistent_performAll start actions
  have grown := extends_of_performAll start done
  rw [done] at consistent
  have same : a'.connections.map (·.terminal) = (actions.flatMap (·.stated)).map (·.terminal) :=
    grown.terminals.trans h.stated.symm
  refine List.ext_getElem? fun i => ?_
  have place := congrArg (·[i]?) same
  rw [List.getElem?_map, List.getElem?_map] at place
  cases there : (actions.flatMap (·.stated))[i]? with
  | none =>
    rw [there] at place
    exact Option.map_eq_none_iff.mp place
  | some c =>
    rw [there] at place
    obtain ⟨c', here, terminal⟩ := Option.map_eq_some_iff.mp place
    -- the only connection of that name is the one at which the current was stated
    obtain ⟨d, mem, name, current⟩ := grown.currents c (List.mem_of_getElem? there)
    obtain ⟨j, other⟩ := List.mem_iff_getElem?.mp mem
    have at_i : (a'.connections.map (·.terminal.name))[i]? = some c.terminal.name := by
      rw [List.getElem?_map, here, Option.map_some, terminal]
    have at_j : (a'.connections.map (·.terminal.name))[j]? = some c.terminal.name := by
      rw [List.getElem?_map, other, Option.map_some, name]
    have inside := (List.getElem?_eq_some_iff.mp at_i).1
    obtain rfl := (List.getElem?_inj inside consistent.names).mp (at_i.trans at_j.symm)
    obtain rfl : c' = d := Option.some.inj (here.symm.trans other)
    rw [here]
    cases c
    cases c'
    cases terminal
    cases current
    rfl

/-- If all currents are stated and there are as many equations as unknowns, only an undefined symbol is in the way. -/
theorem finish_of_square [Scalar α] (stated : ∀ c ∈ a.connections, c.current?.isSome = true)
    (square : (a.equations ++ a.nodeEquations).length = a.unknowns.length) :
    a.finish = .ok ⟨a.unknowns, a.equations ++ a.nodeEquations, a.inputs, a.parameters⟩ ∨
      ∃ s, a.finish = .error (.undefinedSymbol s) := by
  have all : a.connections.find? (·.current?.isNone) = none := by
    refine List.find?_eq_none.mpr fun c mem => ?_
    simp [Option.isSome_iff_ne_none.mp (stated c mem)]
  unfold finish
  rw [all]
  dsimp only
  split
  · next s _ => exact .inr ⟨s.text, rfl⟩
  · rw [square, if_neg (Nat.lt_irrefl _), if_neg (Nat.lt_irrefl _)]
    exact .inl rfl

end Assembly

end AnalogCircuit
