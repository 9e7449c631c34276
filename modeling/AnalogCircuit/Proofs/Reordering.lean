import AnalogCircuit.Proofs.Circuits
import AnalogCircuit.Proofs.ElementLines
/-!
# Texts with their element lines in another order

If a text denotes a circuit, the texts with the same element lines in another order denote circuits too: those with the
same components in that order, and otherwise the same, down to the numbers of the nodes and to the source that is added
at the input.
-/

namespace AnalogCircuit

variable {α : Type}

namespace Netlist

/-! ## Texts -/

/-- The lines of a text. -/
def linesOf (text : String) : List (List Char) := text.toList.splitOn '\n'

/-- The element lines of a text. -/
def elementLines (text : String) : List (List Char) := (linesOf text).filter isElementLine

/-- The texts have the same element lines, maybe in another order, and apart from them the same lines in the same
places. -/
def Reordered (text text' : String) : Prop :=
  (elementLines text).Perm (elementLines text') ∧ otherLines (linesOf text) = otherLines (linesOf text')

instance (text text' : String) : Decidable (Reordered text text') := inferInstanceAs (Decidable (_ ∧ _))

/-- A line is among the other lines or it is an element line. -/
theorem mem_lines {css : List (List Char)} {cs : List Char} :
    cs ∈ css ↔ some cs ∈ otherLines css ∨ cs ∈ css.filter isElementLine := by
  rw [otherLines, List.mem_map, List.mem_filter]
  constructor
  · intro mem
    cases element : isElementLine cs with
    | true => exact .inr ⟨mem, rfl⟩
    | false => exact .inl ⟨cs, mem, by rw [element]; rfl⟩
  · rintro (⟨cs', mem, same⟩ | ⟨mem, -⟩)
    · split at same
      · cases same
      · exact Option.some.inj same ▸ mem
    · exact mem

theorem Reordered.mem_linesOf {text text' : String} (h : Reordered text text') {cs : List Char} :
    cs ∈ linesOf text' ↔ cs ∈ linesOf text := by
  rw [mem_lines, ← h.2]
  exact (or_congr_right h.1.mem_iff.symm).trans mem_lines.symm

/-! ## Nodes -/

theorem nodup_eraseDups {β : Type} [BEq β] [LawfulBEq β] (l : List β) : l.eraseDups.Nodup := by
  generalize size : l.length = n
  induction n using Nat.strong_induction_on generalizing l with
  | _ n ih =>
    cases l with
    | nil => exact List.nodup_nil
    | cons x l =>
      rw [List.eraseDups_cons]
      refine List.nodup_cons.mpr ⟨fun mem => ?_, ih _ ?_ _ rfl⟩
      · simpa using (List.mem_filter.mp (List.mem_eraseDups.mp mem)).2
      · rw [← size]
        exact Nat.lt_succ_of_le (List.length_filter_le _ _)

/-- The order of names is total, so sorting forgets how they stood before. -/
theorem sortBy_names_eq_of_perm {names names' : List String} (perm : names.Perm names') :
    sortBy (fun a b => !(b < a : Bool)) names = sortBy (fun a b => !(b < a : Bool)) names' := by
  have before (a b : String) : (!(b < a : Bool)) = true ↔ a ≤ b := by
    rw [Bool.not_eq_true', decide_eq_false_iff_not, String.not_lt]
  refine sortBy_eq_of_perm (fun a b behind => ?_) (fun a b c hab hbc => ?_) (fun a b hab hba => ?_) perm
  · rw [Bool.not_eq_false', decide_eq_true_eq] at behind
    exact (before b a).mpr (String.not_lt.mp (String.lt_asymm behind))
  · exact (before a c).mpr (String.le_trans ((before a b).mp hab) ((before b c).mp hbc))
  · exact String.le_antisymm ((before a b).mp hab) ((before b a).mp hba)

theorem foldl_addNode_withElements (m : Netlist α) (es : List (Element α)) (nodes : List String) :
    nodes.foldl addNode (m.withElements es) = (nodes.foldl addNode m).withElements es := by
  induction nodes generalizing m with
  | nil => rfl
  | cons node nodes ih =>
    rw [List.foldl_cons, addNode_withElements]
    exact ih (m.addNode node)

/-- The nodes depend on which nodes the elements mention only. -/
theorem withElementNodes_withElements {m : Netlist α} {es es' : List (Element α)}
    (mentioned : ∀ node, node ∈ es'.flatMap (·.nodes) ↔ node ∈ es.flatMap (·.nodes)) :
    (m.withElements es').withElementNodes = (m.withElements es).withElementNodes.withElements es' := by
  -- both lists hold the same names, each once
  have perm : (es'.flatMap (·.nodes)).eraseDups.Perm (es.flatMap (·.nodes)).eraseDups := by
    refine (List.perm_ext_iff_of_nodup (nodup_eraseDups _) (nodup_eraseDups _)).mpr fun node => ?_
    rw [List.mem_eraseDups, List.mem_eraseDups]
    exact mentioned node
  unfold withElementNodes
  dsimp only
  rw [foldl_addNode_withElements, foldl_addNode_withElements]
  exact congrArg (fun nodes => (nodes.foldl addNode m).withElements es') (sortBy_names_eq_of_perm perm)

theorem elements_withElementNodes (m : Netlist α) : m.withElementNodes.elements = m.elements :=
  congrArg (·.elements) (foldl_addNode_withElements m m.elements _)

/-! ## Netlists -/

variable [Scalar α]

/-- The lines of a text that is read have no fault, and its netlist has the elements that the element lines spell. -/
theorem spells_of_parse {text : String} {n : Netlist α} (h : parse text = .ok n) :
    (∀ cs ∈ linesOf text, IsScanned cs) ∧ ∃ m, List.Forall₂ Spells (elementLines text) n.elements ∧
      ReadsOthers 1 (otherLines (linesOf text)) empty m ∧ n = (m.withElements n.elements).withElementNodes := by
  obtain ⟨m, read, rfl⟩ := parse_eq_ok_iff_foldlM.mp h
  rw [Line.ofText_eq_linesFrom] at read
  have scanned := isScanned_of_foldlM read
  obtain ⟨es, spells, elements, others⟩ := spells_of_foldlM (areLines_linesFrom scanned) read
  rw [elements_withElementNodes]
  exact ⟨scanned, m.withElements [], elements ▸ spells, others, rfl⟩

theorem parse_of_spells {text : String} (scanned : ∀ cs ∈ linesOf text, IsScanned cs) {es : List (Element α)}
    (spells : List.Forall₂ Spells (elementLines text) es) {m : Netlist α}
    (others : ReadsOthers 1 (otherLines (linesOf text)) empty m) :
    ∃ es', List.Forall₂ Spells (elementLines text) es' ∧ parse text = .ok (m.withElements es').withElementNodes := by
  have others : ReadsOthers 1 (otherLines (linesOf text)) ((empty : Netlist α).withElements []) m := others
  obtain ⟨es', spells', read⟩ := foldlM_of_spells (areLines_linesFrom scanned) spells others
  rw [← Line.ofText_eq_linesFrom] at read
  exact ⟨es', spells', parse_eq_ok_iff_foldlM.mpr ⟨_, read, rfl⟩⟩

theorem mem_flatMap_nodes {css : List (List Char)} {es : List (Element α)} (spells : List.Forall₂ Spells css es)
    (node : String) :
    node ∈ es.flatMap (·.nodes) ↔ ∃ cs ∈ css, ∃ e : Element α, Spells cs e ∧ node ∈ e.nodes := by
  induction spells with
  | nil => simp
  | @cons cs e css es spelled spells ih =>
    rw [List.flatMap_cons, List.mem_append, ih, List.exists_mem_cons_iff]
    refine or_congr_left ⟨fun mem => ⟨e, spelled, mem⟩, ?_⟩
    rintro ⟨e', spelled', mem⟩
    exact ((Element.mk.inj (spelled.unique spelled')).2.2.1).symm ▸ mem

/-- A text with the element lines in another order denotes the same netlist with other elements, those that the lines
spell. -/
theorem parse_of_reordered {text text' : String} (h : Reordered text text') {n : Netlist α}
    (read : parse text = .ok n) : ∃ es', parse text' = .ok (n.withElements es') ∧
      List.Forall₂ Spells (elementLines text) n.elements ∧ List.Forall₂ Spells (elementLines text') es' := by
  obtain ⟨scanned, m, spells, others, whole⟩ := spells_of_parse read
  obtain ⟨es, moved, -⟩ := List.perm_comp_forall₂ h.1.symm spells
  obtain ⟨es', spells', read'⟩ :=
    parse_of_spells (fun cs mem => scanned cs (h.mem_linesOf.mp mem)) moved (h.2 ▸ others)
  refine ⟨es', ?_, spells, spells'⟩
  rw [read', withElementNodes_withElements fun node => ?_, ← whole]
  rw [mem_flatMap_nodes spells', mem_flatMap_nodes spells]
  simp only [h.1.mem_iff]

end Netlist

namespace Circuit

open Netlist

/-! ## Components -/

variable [Scalar α]

omit [Scalar α] in
theorem requireValue_line {e : Element α} {what : String} {v : Expr α} (h : requireValue e what = .ok v) (k : Nat) :
    requireValue { e with line := k } what = .ok v := by
  unfold requireValue at h ⊢
  split at h
  · next found => exact found ▸ h
  · cases h

omit [Scalar α] in
theorem lawOf_line {β : Type} {e : Element α} {model? : Option (Model α)} {kinds : List ModelKind}
    {ofModel : Model α → β} {standard law : β} (h : lawOf e model? kinds ofModel standard = .ok law) (k : Nat) :
    lawOf { e with line := k } model? kinds ofModel standard = .ok law := by
  unfold lawOf at h ⊢
  split at h
  · exact h
  · split at h
    · next found => rw [if_pos found, h]
    · cases h

theorem deviceOf_line {e : Element α} {ends : List Node} {model? : Option (Model α)} {signal : String} {d : Device α}
    (h : deviceOf e ends model? signal = .ok d) (k : Nat) : deviceOf { e with line := k } ends model? signal = .ok d := by
  obtain ⟨kind, name, nodes, value?, model, settings, line⟩ := e
  unfold deviceOf at h ⊢
  split at h
  case h_4 same => cases same; exact h
  case h_5 same => cases same; exact h
  case h_10 same => cases same; exact h
  case h_11 => cases h
  case h_1 same | h_2 same | h_3 same | h_9 same =>
    cases same
    obtain ⟨v, found, h⟩ := exists_of_bind_eq_ok h
    exact (congrArg (· >>= _) (requireValue_line found k)).trans h
  all_goals
    next same =>
    cases same
    obtain ⟨v, found, h⟩ := exists_of_bind_eq_ok h
    exact (congrArg (· >>= _) (lawOf_line found k)).trans h

theorem componentOf_line {n : Netlist α} {nodes : List String} {signal : String} {e : Element α} {x : Component α}
    (h : componentOf n nodes signal e = .ok x) (k : Nat) : componentOf n nodes signal { e with line := k } = .ok x := by
  obtain ⟨name, ends, model?, resolved, found, made⟩ := componentOf_eq_ok_iff.mp h
  exact componentOf_eq_ok_iff.mpr ⟨name, ends, model?, resolved, found, deviceOf_line made k⟩

/-- The text of an element line gives a component. -/
def Gives (n : Netlist α) (nodes : List String) (signal : String) (cs : List Char) (x : Component α) : Prop :=
  ∃ e, Spells cs e ∧ componentOf n nodes signal e = .ok x

/-- Every element that the text spells denotes the component. -/
theorem Gives.componentOf {n : Netlist α} {nodes : List String} {signal : String} {cs : List Char} {x : Component α}
    (h : Gives n nodes signal cs x) {e : Element α} (spells : Spells cs e) :
    componentOf n nodes signal e = .ok x := by
  obtain ⟨e', spells', built⟩ := h
  have same : { e' with line := e.line } = e :=
    congrArg (fun e₀ : Element α => { e₀ with line := e.line }) (spells'.unique spells)
  exact same ▸ componentOf_line built e.line

theorem Gives.unique {n : Netlist α} {nodes : List String} {signal : String} {cs : List Char} {x y : Component α}
    (h : Gives n nodes signal cs x) (h' : Gives n nodes signal cs y) : x = y := by
  obtain ⟨e, spells, built⟩ := h
  exact Except.ok.inj (built.symm.trans (h'.componentOf spells))

theorem inputSources_eq_of_perm {signal : String} {inputNode? : Option Node} {cs cs' : List (Component α)}
    (perm : cs.Perm cs') : inputSources signal inputNode? cs = inputSources signal inputNode? cs' := by
  unfold inputSources
  rw [perm.any_eq]

theorem forall₂_trans {β γ δ : Type} {R : β → γ → Prop} {S : γ → δ → Prop} {T : β → δ → Prop}
    (h : ∀ b c d, R b c → S c d → T b d) {bs : List β} {cs : List γ} {ds : List δ} (first : List.Forall₂ R bs cs)
    (second : List.Forall₂ S cs ds) : List.Forall₂ T bs ds := by
  induction first generalizing ds with
  | nil =>
    cases second
    exact .nil
  | cons head tail ih =>
    cases second with
    | cons head' tail' => exact .cons (h _ _ _ head head') (ih tail')

/-- The values that a functional relation assigns to a list are those of a function. -/
theorem exists_eq_map_of_forall₂ {β γ : Type} [Nonempty γ] {R : β → γ → Prop}
    (unique : ∀ b c c', R b c → R b c' → c = c') :
    ∃ f : β → γ, ∀ bs cs, List.Forall₂ R bs cs → cs = bs.map f := by
  refine ⟨fun b => Classical.epsilon (R b), fun bs cs related => ?_⟩
  induction related with
  | nil => rfl
  | @cons b c bs cs related _ ih =>
    rw [List.map_cons, ← ih, unique b c _ related (Classical.epsilon_spec ⟨c, related⟩)]

/-- The circuit with other components. -/
def withComponents (c : Circuit α) (cs : List (Component α)) : Circuit α := { c with components := cs }

/-- The elements of the same lines in another order denote the same components in that order. -/
theorem Denotes.reordered {n : Netlist α} {c : Circuit α} (h : Denotes n c) {css css' : List (List Char)}
    {es' : List (Element α)} (perm : css.Perm css') (spells : List.Forall₂ Spells css n.elements)
    (spells' : List.Forall₂ Spells css' es') :
    ∃ cs cs' sources, List.Forall₂ (Gives n c.nodes c.signal) css cs ∧
      List.Forall₂ (Gives n c.nodes c.signal) css' cs' ∧ c.components = cs ++ sources ∧ cs'.Perm cs ∧
      Denotes (n.withElements es') (c.withComponents (cs' ++ sources)) := by
  obtain ⟨cs, built, components⟩ := h.components
  have gives : List.Forall₂ (Gives n c.nodes c.signal) css cs :=
    forall₂_trans (fun _ e _ spelled built => ⟨e, spelled, built⟩) spells built
  obtain ⟨cs', gives', moved⟩ := List.perm_comp_forall₂ perm.symm gives
  -- the elements that were read from the lines differ in their own lines only, which no component shows
  have spelled : List.Forall₂ (fun e cs => Spells cs e) es' css' := List.Forall₂.flip spells'
  have built' : List.Forall₂ (fun e x => Circuit.componentOf n c.nodes c.signal e = .ok x) es' cs' := by
    refine forall₂_trans ?_ spelled gives'
    intro e cs x spelled given
    exact given.componentOf spelled
  refine ⟨cs, cs', _, gives, gives', components, moved, ?_⟩
  exact {
    nodes := h.nodes
    parameters := h.parameters
    signal := h.signal
    output := h.output
    input := h.input
    components := ⟨cs', built', by rw [inputSources_eq_of_perm moved.symm]; rfl⟩
    names := by
      refine ((List.Perm.map _ ?_).nodup_iff).mpr h.names
      rw [components]
      exact moved.append_right _ }

/-! ## Circuits -/

omit [Scalar α] in
theorem validate_eq_of_perm {c : Circuit α} {cs : List (Component α)} (perm : c.components.Perm cs) :
    (c.withComponents cs).validate = c.validate := by
  unfold validate withComponents
  dsimp only
  rw [perm.any_eq, perm.isEmpty_eq]

/-- A text with the element lines in another order denotes the same circuit but for the order of the components: that of
their lines, and a source that is added at the input is the last one. -/
theorem ofText_of_reordered {text text' : String} (h : Reordered text text') {c : Circuit α}
    (read : ofText text = .ok c) : ∃ (component : List Char → Component α) (sources : List (Component α)),
      c.components = (elementLines text).map component ++ sources ∧
        ofText text' = .ok (c.withComponents ((elementLines text').map component ++ sources)) := by
  obtain ⟨n, parsed, denotes, valid⟩ := ofText_eq_ok_iff.mp read
  obtain ⟨es', parsed', spells, spells'⟩ := parse_of_reordered h parsed
  obtain ⟨cs, cs', sources, gives, gives', components, moved, denotes'⟩ := denotes.reordered h.1 spells spells'
  have : Nonempty (Component α) := ⟨inputSource "" .ground⟩
  obtain ⟨component, values⟩ := exists_eq_map_of_forall₂ (R := Gives n c.nodes c.signal) fun _ _ _ => Gives.unique
  obtain rfl := values _ _ gives
  obtain rfl := values _ _ gives'
  refine ⟨component, sources, components, ofText_eq_ok_iff.mpr ⟨_, parsed', denotes', ?_⟩⟩
  rw [validate_eq_of_perm, valid]
  rw [components]
  exact (moved.append_right _).symm

end Circuit

end AnalogCircuit
