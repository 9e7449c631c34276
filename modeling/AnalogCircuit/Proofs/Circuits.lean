import Mathlib.Data.List.Forall2
import AnalogCircuit.Circuit.Basic
/-!
# The circuit that a netlist denotes

A circuit has the nodes and the parameters of its netlist, and a component for every element, whose names are
different; if a node is declared as the input and no element is driven, it has a source of its own there.
-/

namespace AnalogCircuit

variable {α : Type}

/-! ## Devices -/

namespace Device

/-- Whatever drives the device is a signal of this name. -/
def DrivenBy (signal : String) (d : Device α) : Prop :=
  ∀ p n v drive, d = .voltageSource p n v (some drive) → drive.input = signal

/-- The kind of elements that denote such devices. -/
def kind : Device α → Netlist.ElementKind
  | resistor .. => .resistor
  | capacitor .. => .capacitor
  | inductor .. => .inductor
  | voltageSource .. => .voltageSource
  | currentSource .. => .currentSource
  | diode .. => .diode
  | transistor .. => .bjt
  | amplifier .. => .opAmp
  | potentiometer .. => .potentiometer
  | transformer .. => .transformer

/-- A device of the kind of its element, connected to these nodes, and driven by this signal if by any. -/
structure Serves (d : Device α) (e : Netlist.Element α) (nodes : List Node) (signal : String) : Prop where
  kind : d.kind = e.kind
  nodes : d.pins.map (·.2) = nodes
  driven : d.DrivenBy signal

end Device

namespace Circuit

open Netlist

/-! ## Components -/

theorem addComponent_eq_ok_iff {name : String} {build : Except Error (Component α)} {cs cs' : List (Component α)} :
    addComponent name build cs = .ok cs' ↔
      name ∉ cs.map (·.name) ∧ ∃ c, build = .ok c ∧ cs' = cs ++ [c] := by
  unfold addComponent
  split
  · next taken =>
    refine iff_of_false nofun fun h => h.1 ?_
    simpa using taken
  · next new =>
    rw [and_iff_right (show name ∉ cs.map (·.name) by simpa using new)]
    cases build with
    | error e => exact iff_of_false nofun fun h => h.elim fun _ h => nomatch h.1
    | ok c => simp [Except.map, eq_comm]

/-- Adding components succeeds if all of them can be built and their names are different. -/
theorem foldlM_addComponent_eq_ok_iff {build : Element α → Except Error (Component α)}
    (named : ∀ e c, build e = .ok c → c.name = e.name) {es : List (Element α)} {cs cs' : List (Component α)}
    (distinct : (cs.map (·.name)).Nodup) :
    es.foldlM (fun cs e => addComponent e.name (build e) cs) cs = .ok cs' ↔
      ∃ new, List.Forall₂ (fun e c => build e = .ok c) es new ∧ cs' = cs ++ new ∧ (cs'.map (·.name)).Nodup := by
  induction es generalizing cs with
  | nil =>
    show Except.ok cs = Except.ok cs' ↔ _
    rw [Except.ok.injEq]
    constructor
    · rintro rfl
      exact ⟨[], .nil, (List.append_nil _).symm, distinct⟩
    · rintro ⟨_, ⟨⟩, rfl, -⟩
      exact (List.append_nil _).symm
  | cons e es ih =>
    have extended {c : Component α} (built : build e = .ok c) :
        ((cs ++ [c]).map (·.name)).Nodup ↔ e.name ∉ cs.map (·.name) := by
      rw [List.map_append, List.map_singleton, named e c built, List.perm_append_singleton _ _ |>.nodup_iff,
        List.nodup_cons]
      exact and_iff_left distinct
    rw [List.foldlM_cons]
    constructor
    · intro h
      obtain ⟨cs₁, added, h⟩ := exists_of_bind_eq_ok h
      obtain ⟨fresh, c, built, rfl⟩ := addComponent_eq_ok_iff.mp added
      obtain ⟨new, all, rfl, names⟩ := (ih ((extended built).mpr fresh)).mp h
      exact ⟨c :: new, .cons built all, List.append_assoc .., names⟩
    · rintro ⟨_, ⟨⟩, rfl, names⟩
      next c new built all =>
      have fresh := (extended built).mp <| names.sublist <|
        (show (cs ++ [c]).Sublist (cs ++ c :: new) by simp).map _
      rw [addComponent_eq_ok_iff.mpr ⟨fresh, c, built, rfl⟩]
      exact (ih ((extended built).mpr fresh)).mpr ⟨new, all, List.append_cons .., names⟩

/-! ## Circuits -/

variable [Scalar α]

theorem serves_deviceOf {e : Element α} {nodes : List Node} {model? : Option (Model α)} {signal : String}
    {d : Device α} (h : deviceOf e nodes model? signal = .ok d) : d.Serves e nodes signal := by
  unfold deviceOf at h
  split at h
  -- sources and transformers can do without a value; a source of voltage with a gain is driven
  case h_4 same =>
    cases h
    refine ⟨same.symm, rfl, fun p n v drive driven => ?_⟩
    cases gain : e.setting? "ac" with
    | none => rw [gain] at driven; cases driven
    | some gain' => rw [gain] at driven; cases driven; rfl
  case h_5 same => cases h; exact ⟨same.symm, rfl, nofun⟩
  case h_10 same => cases h; exact ⟨same.symm, rfl, nofun⟩
  case h_11 => cases h
  all_goals
    next same =>
    obtain ⟨_, -, h⟩ := exists_of_bind_eq_ok h
    cases h
    exact ⟨same.symm, rfl, nofun⟩

/-- A component is named after its element, and its device is what the element denotes at its nodes, with its model if
it has one. -/
theorem componentOf_eq_ok_iff {n : Netlist α} {nodes : List String} {signal : String} {e : Element α}
    {c : Component α} : componentOf n nodes signal e = .ok c ↔
      c.name = e.name ∧ ∃ ends model?, e.nodes.mapM (resolve nodes) = .ok ends ∧
        e.model?.map n.model? = model?.map some ∧ deviceOf e ends model? signal = .ok c.device := by
  obtain ⟨name, device⟩ := c
  unfold componentOf
  cases e.nodes.mapM (resolve nodes) with
  | error _ => exact iff_of_false nofun fun ⟨_, _, _, resolved, _⟩ => nomatch resolved
  | ok ends =>
    have named (model? : Option (Model α)) :
        (deviceOf e ends model? signal >>= fun d => pure (⟨e.name, d⟩ : Component α)) = .ok ⟨name, device⟩ ↔
          name = e.name ∧ deviceOf e ends model? signal = .ok device := by
      cases deviceOf e ends model? signal with
      | error _ => exact iff_of_false nofun fun ⟨_, made⟩ => nomatch made
      | ok d => simp [bind, Except.bind, pure, Except.pure, eq_comm]
    cases e.model? with
    | none =>
      refine (named none).trans (and_congr_right fun _ => ⟨fun made => ⟨ends, none, rfl, rfl, made⟩, ?_⟩)
      rintro ⟨_, _ | m, ⟨⟩, found, made⟩
      · exact made
      · cases found
    | some model =>
      dsimp only [Option.map_some]
      cases n.model? model with
      | none => exact iff_of_false nofun fun ⟨_, _, model?, _, found, _⟩ => by cases model? <;> cases found
      | some m =>
        refine (named (some m)).trans (and_congr_right fun _ => ⟨fun made => ⟨ends, some m, rfl, rfl, made⟩, ?_⟩)
        rintro ⟨_, _ | m', ⟨⟩, found, made⟩
        · cases found
        · cases found
          exact made

/-- The source of the input signal at a node. -/
def inputSource (signal : String) (node : Node) : Component α :=
  ⟨inputSourceName, .voltageSource node .ground .zero (some ⟨signal, .one⟩)⟩

/-- The source at the input node, if there is such a node and nothing else is driven. -/
def inputSources (signal : String) (inputNode? : Option Node) (cs : List (Component α)) : List (Component α) :=
  if cs.any (·.device.isDriven) then [] else inputNode?.toList.map (inputSource signal)

/-- The circuit is what the netlist says, and its components have names of their own. -/
structure Denotes (n : Netlist α) (c : Circuit α) : Prop where
  nodes : c.nodes = "0" :: n.nodes
  parameters : c.parameters = n.parameters
  signal : c.signal = n.inputName?.getD "Vin"
  output : ∃ name, n.outputNode? = some name ∧ resolve c.nodes name = .ok c.outputNode
  input : n.inputNode?.mapM (resolve c.nodes) = .ok c.inputNode?
  components : ∃ cs, List.Forall₂ (fun e x => componentOf n c.nodes c.signal e = .ok x) n.elements cs ∧
    c.components = cs ++ inputSources c.signal c.inputNode? cs
  names : (c.components.map (·.name)).Nodup

theorem ofNetlist_eq_ok_iff {n : Netlist α} {c : Circuit α} : ofNetlist n = .ok c ↔ Denotes n c := by
  have folded (nodes : List String) (signal : String) {cs : List (Component α)} :
      n.elements.foldlM (fun cs e => addComponent e.name (componentOf n nodes signal e) cs) [] = .ok cs ↔
        ∃ new, List.Forall₂ (fun e x => componentOf n nodes signal e = .ok x) n.elements new ∧ cs = [] ++ new ∧
          (cs.map (·.name)).Nodup :=
    foldlM_addComponent_eq_ok_iff (fun e c h => (componentOf_eq_ok_iff.mp h).1) List.nodup_nil
  constructor
  · intro h
    unfold ofNetlist at h
    dsimp only at h
    split at h
    case h_2 => cases h
    next name declared =>
    obtain ⟨outputNode, output, h⟩ := exists_of_bind_eq_ok h
    obtain ⟨inputNode?, input, h⟩ := exists_of_bind_eq_ok h
    obtain ⟨cs, added, h⟩ := exists_of_bind_eq_ok h
    obtain ⟨_, built, rfl, names⟩ := (folded _ _).mp added
    -- a source is added at an input node if nothing is driven
    cases inputNode? with
    | none =>
      cases h
      exact ⟨rfl, rfl, rfl, ⟨name, declared, output⟩, input, ⟨cs, built, by simp [inputSources]⟩, names⟩
    | some node =>
      cases driven : cs.any (·.device.isDriven) with
      | true =>
        rw [driven] at h
        cases h
        exact ⟨rfl, rfl, rfl, ⟨name, declared, output⟩, input, ⟨cs, built, by simp [inputSources, driven]⟩, names⟩
      | false =>
        rw [driven] at h
        obtain ⟨components, extended, h⟩ := exists_of_bind_eq_ok h
        cases h
        obtain ⟨fresh, source, made, rfl⟩ := addComponent_eq_ok_iff.mp extended
        cases made
        refine ⟨rfl, rfl, rfl, ⟨name, declared, output⟩, input, ⟨cs, built, ?_⟩, ?_⟩
        · simp [inputSources, driven, inputSource]
        · rw [List.map_append, List.map_singleton, (List.perm_append_singleton _ _).nodup_iff, List.nodup_cons]
          exact ⟨fresh, names⟩
  · rintro ⟨nodes, parameters, signal, ⟨name, declared, output⟩, input, ⟨cs, built, components⟩, names⟩
    obtain ⟨_, _, _, inputNode?, _, outputNode⟩ := c
    dsimp only at *
    subst nodes parameters signal components
    have added := (folded _ _).mpr ⟨cs, built, rfl, names.sublist ((List.sublist_append_left _ _).map _)⟩
    unfold ofNetlist
    rw [declared]
    simp only [output, input, added, bind, Except.bind]
    unfold inputSources at names ⊢
    cases inputNode? with
    | none => simp [pure, Except.pure]
    | some node =>
      cases driven : cs.any (·.device.isDriven) with
      | true => simp [driven, pure, Except.pure]
      | false =>
        have fresh : inputSourceName ∉ cs.map (·.name) := by
          rw [driven] at names
          simp only [Bool.false_eq_true, if_false, Option.toList_some, List.map_singleton, List.map_append,
            (List.perm_append_singleton _ _).nodup_iff, List.nodup_cons] at names
          exact names.1
        simp [driven, addComponent_eq_ok_iff.mpr ⟨fresh, _, rfl, rfl⟩, pure, Except.pure, inputSource]

theorem ofText_eq_ok_iff {text : String} {c : Circuit α} : ofText text = .ok c ↔
    ∃ n, Netlist.parse text = .ok n ∧ Denotes n c ∧ c.validate = .ok () := by
  constructor
  · intro h
    obtain ⟨n, read, h⟩ := exists_of_bind_eq_ok h
    obtain ⟨c', built, h⟩ := exists_of_bind_eq_ok h
    obtain ⟨⟨⟩, valid, h⟩ := exists_of_bind_eq_ok h
    obtain rfl : c' = c := Except.ok.inj h
    exact ⟨n, read, ofNetlist_eq_ok_iff.mp built, valid⟩
  · rintro ⟨n, read, denotes, valid⟩
    unfold ofText
    rw [read]
    show (ofNetlist n >>= fun c => c.validate >>= fun _ => pure c) = _
    rw [ofNetlist_eq_ok_iff.mpr denotes]
    show (c.validate >>= fun _ => pure c) = _
    rw [valid]
    rfl

/-- A component is that of an element, or the source of the input signal at the input node. -/
theorem Denotes.mem_components {n : Netlist α} {c : Circuit α} (h : Denotes n c) {x : Component α}
    (mem : x ∈ c.components) :
    (∃ e ∈ n.elements, componentOf n c.nodes c.signal e = .ok x) ∨
      ∃ node, c.inputNode? = some node ∧ x = inputSource c.signal node := by
  obtain ⟨cs, built, components⟩ := h.components
  rw [components] at mem
  rcases List.mem_append.mp mem with mem | mem
  · left
    obtain ⟨i, inside, rfl⟩ := List.mem_iff_getElem.mp mem
    have inside' : i < n.elements.length := built.length_eq ▸ inside
    exact ⟨n.elements[i], List.getElem_mem inside', built.get inside' inside⟩
  · right
    unfold inputSources at mem
    split at mem
    · cases mem
    · obtain ⟨node, input, rfl⟩ := List.mem_map.mp mem
      exact ⟨node, Option.mem_toList.mp input, rfl⟩

/-- Whatever is driven is driven by the signal of the circuit. -/
theorem Denotes.drives {n : Netlist α} {c : Circuit α} (h : Denotes n c) :
    ∀ x ∈ c.components, x.device.DrivenBy c.signal := by
  intro x mem
  rcases h.mem_components mem with ⟨e, -, built⟩ | ⟨node, -, rfl⟩
  · obtain ⟨-, ends, model?, -, -, built⟩ := componentOf_eq_ok_iff.mp built
    exact (serves_deviceOf built).driven
  · rintro p n v drive ⟨⟩
    rfl

end Circuit

end AnalogCircuit
