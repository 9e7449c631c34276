import AnalogCircuit.Proofs.ElementLines
import AnalogCircuit.Proofs.Lossless
/-!
# Netlists up to the numbers of their lines

A line is read by its tokens: what it declares does not depend on where it stands, except that elements, models and
parameters note the number of their line. So lines that hold the same declare the same, and an empty line declares
nothing.
-/

namespace AnalogCircuit.Netlist

variable {α : Type}

/-! ## Declarations without line numbers -/

/-- The element without the number of its line. -/
def Element.unnumbered (e : Element α) : Element α := { e with line := 0 }

/-- The model without the number of its line. -/
def Model.unnumbered (m : Model α) : Model α := { m with line := 0 }

/-- The parameter without the number of its line. -/
def Parameter.unnumbered (p : Parameter α) : Parameter α := { p with line := 0 }

/-- Two netlists declare the same, perhaps on other lines. -/
structure AgreeUpToLines (n n' : Netlist α) : Prop where
  elements : n'.elements.map Element.unnumbered = n.elements.map Element.unnumbered
  models : n'.models.map Model.unnumbered = n.models.map Model.unnumbered
  parameters : n'.parameters.map Parameter.unnumbered = n.parameters.map Parameter.unnumbered
  inputNode : n'.inputNode? = n.inputNode?
  inputName : n'.inputName? = n.inputName?
  outputNode : n'.outputNode? = n.outputNode?
  nodes : n'.nodes = n.nodes

namespace AgreeUpToLines

variable {n n' n'' : Netlist α}

theorem refl (n : Netlist α) : AgreeUpToLines n n := ⟨rfl, rfl, rfl, rfl, rfl, rfl, rfl⟩

theorem trans (h : AgreeUpToLines n n') (h' : AgreeUpToLines n' n'') : AgreeUpToLines n n'' where
  elements := h'.elements.trans h.elements
  models := h'.models.trans h.models
  parameters := h'.parameters.trans h.parameters
  inputNode := h'.inputNode.trans h.inputNode
  inputName := h'.inputName.trans h.inputName
  outputNode := h'.outputNode.trans h.outputNode
  nodes := h'.nodes.trans h.nodes

theorem addNode (h : AgreeUpToLines n n') (node : String) : AgreeUpToLines (n.addNode node) (n'.addNode node) := by
  unfold Netlist.addNode
  rw [h.nodes]
  split
  · exact h
  · exact { h with nodes := rfl }

theorem foldl_addNode (h : AgreeUpToLines n n') (nodes : List String) :
    AgreeUpToLines (nodes.foldl Netlist.addNode n) (nodes.foldl Netlist.addNode n') := by
  induction nodes generalizing n n' with
  | nil => exact h
  | cons node nodes ih => exact ih (h.addNode node)

/-! One more declaration of the same -/

theorem addElement {e e' : Element α} (h : AgreeUpToLines n n') (same : e'.unnumbered = e.unnumbered) :
    AgreeUpToLines { n with elements := n.elements ++ [e] } { n' with elements := n'.elements ++ [e'] } where
  __ := h
  elements := by rw [List.map_append, List.map_append, h.elements, List.map_singleton, List.map_singleton, same]

theorem addModel {m m' : Model α} (h : AgreeUpToLines n n') (same : m'.unnumbered = m.unnumbered) :
    AgreeUpToLines { n with models := n.models ++ [m] } { n' with models := n'.models ++ [m'] } where
  __ := h
  models := by rw [List.map_append, List.map_append, h.models, List.map_singleton, List.map_singleton, same]

theorem addParameter {p p' : Parameter α} (h : AgreeUpToLines n n') (same : p'.unnumbered = p.unnumbered) :
    AgreeUpToLines { n with parameters := n.parameters ++ [p] } { n' with parameters := n'.parameters ++ [p'] } where
  __ := h
  parameters := by
    rw [List.map_append, List.map_append, h.parameters, List.map_singleton, List.map_singleton, same]

/-- The same models are already there. -/
theorem any_models {m m' : Model α} (h : AgreeUpToLines n n') (same : m'.unnumbered = m.unnumbered) :
    n'.models.any (·.name == m'.name) = n.models.any (·.name == m.name) := by
  have bare (models : List (Model α)) (m : Model α) : models.any (·.name == m.name) =
      (models.map Model.unnumbered).any (·.name == m.unnumbered.name) := by
    rw [List.any_map]
    rfl
  rw [bare, bare n.models, h.models, same]

/-- The same parameters are already there. -/
theorem any_parameters {p p' : Parameter α} (h : AgreeUpToLines n n') (same : p'.unnumbered = p.unnumbered) :
    n'.parameters.any (·.name == p'.name) = n.parameters.any (·.name == p.name) := by
  have bare (parameters : List (Parameter α)) (p : Parameter α) : parameters.any (·.name == p.name) =
      (parameters.map Parameter.unnumbered).any (·.name == p.unnumbered.name) := by
    rw [List.any_map]
    rfl
  rw [bare, bare n.parameters, h.parameters, same]

/-- The elements mention the same nodes. -/
theorem withElementNodes (h : AgreeUpToLines n n') : AgreeUpToLines n.withElementNodes n'.withElementNodes := by
  have mentioned (n : Netlist α) :
      n.elements.flatMap (·.nodes) = (n.elements.map Element.unnumbered).flatMap (·.nodes) := by
    rw [List.flatMap_map]
    rfl
  unfold Netlist.withElementNodes
  rw [mentioned n, mentioned n', h.elements]
  exact h.foldl_addNode _

end AgreeUpToLines

/-! ## Directives -/

namespace Line.Alike

variable [Scalar α] {l l' rest : Line}

theorem configures (h : Alike l l') {settings settings' : List (String × α)}
    (form : Configures settings l settings' rest) : ∃ rest', Configures settings l' settings' rest' ∧ Alike rest rest' := by
  induction form generalizing l' with
  | closed first =>
    obtain ⟨t', rest', lt', first', -, alike⟩ := h.take first
    exact ⟨rest', .closed first', alike⟩
  | assigned first second third _ ih =>
    obtain ⟨key', l₁', lt₁, first', same, alike⟩ := h.take first
    obtain ⟨sign', l₂', lt₂, second', -, alike⟩ := alike.take second
    obtain ⟨l₃', lt₃, third', alike⟩ := alike.takeNumber third
    obtain ⟨rest', others, alike⟩ := ih alike
    exact ⟨rest', .assigned first' second' third' (same ▸ others), alike⟩

theorem declaresModel (h : Alike l l') {m : Model α} (form : DeclaresModel l m rest) :
    ∃ m' rest', DeclaresModel l' m' rest' ∧ m'.unnumbered = m.unnumbered ∧ Alike rest rest' := by
  cases form with
  | configured first second known third fourth =>
    obtain ⟨name', l₁', lt₁, first', sameName, alike⟩ := h.take first
    obtain ⟨kind', l₂', lt₂, second', sameKind, alike⟩ := alike.take second
    obtain ⟨t', l₃', lt₃, third', -, alike⟩ := alike.take third
    obtain ⟨rest', fourth', alike⟩ := alike.configures fourth
    refine ⟨_, rest', .configured first' second' (sameKind ▸ known) third' fourth', ?_, alike⟩
    rw [sameName]
    rfl
  | bare first second known unopened =>
    obtain ⟨name', l₁', lt₁, first', sameName, alike⟩ := h.take first
    obtain ⟨kind', l₂', lt₂, second', sameKind, alike⟩ := alike.take second
    refine ⟨_, l₂', .bare first' second' (sameKind ▸ known) (alike.next_ne nofun nofun unopened), ?_, alike⟩
    rw [sameName]
    rfl

theorem declaresParameter (h : Alike l l') {p : Parameter α} (form : DeclaresParameter l p rest) :
    ∃ p' rest', DeclaresParameter l' p' rest' ∧ p'.unnumbered = p.unnumbered ∧ Alike rest rest' := by
  cases form with
  | assigned first second third =>
    obtain ⟨name', l₁', lt₁, first', sameName, alike⟩ := h.take first
    obtain ⟨sign', l₂', lt₂, second', -, alike⟩ := alike.take second
    obtain ⟨rest', lt₃, third', alike⟩ := alike.takeNumber third
    refine ⟨_, rest', .assigned first' second' third', ?_, alike⟩
    rw [sameName]
    rfl
  | plain first unassigned second =>
    obtain ⟨name', l₁', lt₁, first', sameName, alike⟩ := h.take first
    obtain ⟨rest', lt₂, second', alike'⟩ := alike.takeNumber second
    refine ⟨_, rest', .plain first' (alike.next_ne nofun nofun unassigned) second', ?_, alike'⟩
    rw [sameName]
    rfl

/-- What a directive declares is the same from both lines, for netlists that declare the same. -/
theorem declares (h : Alike l l') {n n' m : Netlist α} {directive : String} (agree : AgreeUpToLines n n')
    (form : Declares n l directive m rest) :
    ∃ m' rest', Declares n' l' directive m' rest' ∧ AgreeUpToLines m m' ∧ Alike rest rest' := by
  cases form with
  | input first nameless =>
    obtain ⟨rest', lt, first', alike⟩ := h.takeNode first
    exact ⟨_, rest', .input first' (alike.next_ne nofun nofun nameless), { agree with inputNode := rfl }, alike⟩
  | signal first second =>
    obtain ⟨l₁', lt₁, first', alike⟩ := h.takeNode first
    obtain ⟨signal', rest', lt₂, second', same, alike⟩ := alike.take second
    exact ⟨_, rest', .signal first' second', { agree with inputNode := rfl, inputName := congrArg some same }, alike⟩
  | output first =>
    obtain ⟨rest', lt, first', alike⟩ := h.takeNode first
    exact ⟨_, rest', .output first', { agree with outputNode := rfl }, alike⟩
  | node first =>
    obtain ⟨rest', lt, first', alike⟩ := h.takeNode first
    exact ⟨_, rest', .node first', agree.addNode _, alike⟩
  | parameter first fresh =>
    obtain ⟨p', rest', first', same, alike⟩ := h.declaresParameter first
    rw [← agree.any_parameters same] at fresh
    exact ⟨_, rest', .parameter first' fresh, agree.addParameter same, alike⟩
  | model first fresh =>
    obtain ⟨m', rest', first', same, alike⟩ := h.declaresModel first
    rw [← agree.any_models same] at fresh
    exact ⟨_, rest', .model first' fresh, agree.addModel same, alike⟩

theorem takeDirective (h : Alike l l') {n n' m : Netlist α} (agree : AgreeUpToLines n n')
    (taken : l.takeDirective n = .ok (m, rest)) :
    ∃ m' rest', l'.takeDirective n' = .ok (m', rest') ∧ AgreeUpToLines m m' ∧ Alike rest rest' := by
  obtain ⟨word, directive, l₁, h₁, first, spelled, form⟩ := takeDirective_eq_ok_iff.mp taken
  obtain ⟨word', l₁', lt₁, first', same, alike⟩ := h.take first
  obtain ⟨m', rest', form', agree, alike⟩ := alike.declares agree form
  rw [← same] at spelled
  exact ⟨m', rest', takeDirective_eq_ok_iff.mpr ⟨word', directive, l₁', lt₁, first', spelled, form'⟩, agree, alike⟩

end Line.Alike

/-! ## Lines -/

variable [Scalar α]

/-- Lines that hold the same declare the same. -/
theorem Line.Alike.readLine {l l' : Line} (h : Alike l l') {n n' m : Netlist α} (agree : AgreeUpToLines n n')
    (read : readLine n l = .ok m) : ∃ m', readLine n' l' = .ok m' ∧ AgreeUpToLines m m' := by
  cases readLine_eq_ok_iff.mp read with
  | blank ended => exact ⟨n', readLine_eq_ok_iff.mpr (.blank (h.atEnd.trans ended) h.fault'), agree⟩
  | directive taken ended =>
    obtain ⟨m', rest', taken', agree, alike⟩ := h.takeDirective agree taken
    exact ⟨m', readLine_eq_ok_iff.mpr (.directive taken' (alike.atEnd.trans ended)), agree⟩
  | element taken ended =>
    obtain ⟨rest', taken', alike⟩ := h.takeElement taken
    exact ⟨_, readLine_eq_ok_iff.mpr (.element taken' (alike.atEnd.trans ended)), agree.addElement rfl⟩

/-! ## Rows -/

omit [Scalar α] in
/-- The rows of a text are what its lines hold, the empty ones left out. -/
def rows (contents : List (TokenKind × String)) : List (List (TokenKind × String)) :=
  (contents.splitOnP (·.1 = .newline)).filter (!·.isEmpty)

namespace Line

/-- What the line holds. -/
def contents (l : Line) : List (TokenKind × String) := l.tokens.map Token.content

/-- The line ends where a line does. -/
structure IsSound (l : Line) : Prop where
  ending : EndsLine l.ending
  fault : l.fault = none

/-- The lines of tokens among which no end is marked hold what stands between the breaks. -/
theorem contents_ofTokens {ts : List Token} (inner : ∀ t ∈ ts, t.kind ≠ .eof) (q : Position) :
    (ofTokens none (ts ++ [⟨.eof, "", q⟩])).map contents = (ts.map Token.content).splitOnP (·.1 = .newline) ∧
      ∀ l ∈ ofTokens none (ts ++ [⟨.eof, "", q⟩]), l.IsSound := by
  induction ts with
  | nil => exact ⟨rfl, List.forall_mem_singleton.mpr ⟨.inr rfl, rfl⟩⟩
  | cons t ts ih =>
    obtain ⟨eof, inner⟩ := List.forall_mem_cons.mp inner
    obtain ⟨same, sound⟩ := ih inner
    rw [List.map_cons, List.splitOnP_cons_eq_if_modifyHead, ← same, List.cons_append]
    have content : t.content.1 = t.kind := rfl
    rw [content]
    by_cases newline : t.kind = .newline
    · rw [if_pos (decide_eq_true newline), ofTokens]
      simp only [newline]
      exact ⟨rfl, List.forall_mem_cons.mpr ⟨⟨.inl newline, rfl⟩, sound⟩⟩
    · rw [if_neg (by simpa using newline)]
      cases found : ofTokens none (ts ++ [⟨.eof, "", q⟩]) with
      | nil => exact absurd (found ▸ same).symm (List.splitOnP_ne_nil _ _)
      | cons l ls =>
        rw [found] at sound
        obtain ⟨⟨ending, fault⟩, others⟩ := List.forall_mem_cons.mp sound
        rw [ofTokens_cons newline eof found]
        exact ⟨rfl, List.forall_mem_cons.mpr ⟨⟨ending, fault⟩, others⟩⟩

theorem forall₂_alike {ls ls' : List Line} (same : ls'.map contents = ls.map contents) (sound : ∀ l ∈ ls, l.IsSound)
    (sound' : ∀ l ∈ ls', l.IsSound) : List.Forall₂ Alike ls ls' := by
  induction ls generalizing ls' with
  | nil =>
    obtain rfl := List.map_eq_nil_iff.mp same
    exact .nil
  | cons l ls ih =>
    obtain ⟨l', ls', rfl, first, same⟩ := List.map_eq_cons_iff.mp same
    obtain ⟨fine, sound⟩ := List.forall_mem_cons.mp sound
    obtain ⟨fine', sound'⟩ := List.forall_mem_cons.mp sound'
    exact .cons ⟨first, fine.ending, fine'.ending, fine.fault, fine'.fault⟩ (ih same sound sound')

/-- The lines that hold something. -/
def filled (ls : List Line) : List Line := ls.filter (!·.atEnd)

theorem contents_filled (ls : List Line) : (filled ls).map contents = (ls.map contents).filter (!·.isEmpty) := by
  have same : ((fun c => !c.isEmpty) ∘ contents) = fun l : Line => !l.atEnd := by
    funext l
    simp [contents, atEnd]
  rw [List.filter_map, same]
  rfl

theorem IsSound.of_mem_filled {ls : List Line} (sound : ∀ l ∈ ls, l.IsSound) : ∀ l ∈ filled ls, l.IsSound :=
  fun l hl => sound l (List.mem_of_mem_filter hl)

end Line

/-- Empty lines declare nothing. -/
theorem foldlM_filled {ls : List Line} (sound : ∀ l ∈ ls, l.IsSound) (n : Netlist α) :
    ls.foldlM Netlist.readLine n = (Line.filled ls).foldlM Netlist.readLine n := by
  induction ls generalizing n with
  | nil => rfl
  | cons l ls ih =>
    obtain ⟨fine, others⟩ := List.forall_mem_cons.mp sound
    unfold Line.filled
    cases ended : l.atEnd with
    | true =>
      have read : Netlist.readLine n l = .ok n := by
        rw [Netlist.readLine, if_pos ended, fine.fault]
        rfl
      rw [List.filter_cons_of_neg (by rw [ended]; nofun), List.foldlM_cons, read]
      exact ih others n
    | false =>
      rw [List.filter_cons_of_pos (by rw [ended]; rfl), List.foldlM_cons, List.foldlM_cons]
      exact congrArg _ (funext fun m => ih others m)

theorem foldlM_alike {ls ls' : List Line} (h : List.Forall₂ Line.Alike ls ls') {n n' m : Netlist α}
    (agree : AgreeUpToLines n n') (read : ls.foldlM Netlist.readLine n = .ok m) :
    ∃ m', ls'.foldlM Netlist.readLine n' = .ok m' ∧ AgreeUpToLines m m' := by
  induction h generalizing n n' with
  | nil =>
    cases read
    exact ⟨n', rfl, agree⟩
  | cons alike _ ih =>
    rw [List.foldlM_cons] at read
    obtain ⟨m₁, first, read⟩ := exists_of_bind_eq_ok read
    obtain ⟨m₁', first', agree⟩ := alike.readLine agree first
    obtain ⟨m', read', agree⟩ := ih agree read
    refine ⟨m', ?_, agree⟩
    rw [List.foldlM_cons, first']
    exact read'

/-- What a text without faults denotes depends on its rows. -/
theorem parse_of_rows {text text' : String} {ts ts' : List Token} {q q' : Position}
    (scans : Scans .start text.toList ts (.ok q)) (scans' : Scans .start text'.toList ts' (.ok q'))
    (same : rows (ts'.map Token.content) = rows (ts.map Token.content)) {n : Netlist α} (read : parse text = .ok n) :
    ∃ n', parse text' = .ok n' ∧ AgreeUpToLines n n' := by
  have lines {text : String} {ts : List Token} {q : Position} (scans : Scans .start text.toList ts (.ok q)) :
      (Line.filled (Line.ofText text)).map Line.contents = rows (ts.map Token.content) ∧
        ∀ l ∈ Line.ofText text, l.IsSound := by
    have inner : ∀ t ∈ ts, t.kind ≠ .eof :=
      scans.forall_mem fun _ _ _ _ _ read => (covers_readToken read).eof
    obtain ⟨contents, sound⟩ := Line.contents_ofTokens inner q
    rw [show Line.ofText text = Line.ofTokens none (ts ++ [⟨.eof, "", q⟩]) by
      rw [Line.ofText, tokens, scans.tokensFrom_eq]
      rfl]
    exact ⟨by rw [Line.contents_filled, contents, rows], sound⟩
  obtain ⟨contents, sound⟩ := lines scans
  obtain ⟨contents', sound'⟩ := lines scans'
  have alike := Line.forall₂_alike (contents'.trans (same.trans contents.symm))
    (Line.IsSound.of_mem_filled sound) (Line.IsSound.of_mem_filled sound')
  obtain ⟨m, folded, rfl⟩ := parse_eq_ok_iff_foldlM.mp read
  rw [foldlM_filled sound] at folded
  obtain ⟨m', folded', agree⟩ := foldlM_alike alike (.refl _) folded
  rw [← foldlM_filled sound'] at folded'
  exact ⟨m'.withElementNodes, parse_eq_ok_iff_foldlM.mpr ⟨m', folded', rfl⟩, agree.withElementNodes⟩

end AnalogCircuit.Netlist
