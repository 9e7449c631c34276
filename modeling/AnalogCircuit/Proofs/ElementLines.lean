import Mathlib.Data.List.Perm.Basic
import AnalogCircuit.Proofs.Lines
import AnalogCircuit.Proofs.Sorted
/-!
# Element lines

A netlist holds the elements of its element lines in their order, and apart from the nodes that only they mention the
rest of it is due to the other lines. So netlists with the same element lines in another order differ in the order of
the elements only, and in the numbers of their lines.
-/

namespace AnalogCircuit.Netlist

variable {α : Type}

/-! ## The lines of a text -/

/-- What holds of a text without line breaks, and of a text with one more line in front, holds of all texts. -/
theorem lines_induction {P : List Char → Prop} (last : ∀ cs, '\n' ∉ cs → P cs)
    (line : ∀ cs more, '\n' ∉ cs → P more → P (cs ++ '\n' :: more)) (cs : List Char) : P cs := by
  generalize size : cs.length = n
  induction n using Nat.strong_induction_on generalizing cs with
  | _ n ih =>
    by_cases broken : '\n' ∈ cs
    · obtain ⟨before, more, rfl, unbroken⟩ := List.eq_append_cons_of_mem broken
      refine line before more unbroken (ih more.length ?_ more rfl)
      rw [← size]
      simp
      omega
    · exact last cs broken

/-- The line consists of the tokens of a text, on the line of a number, and is the last one or not. -/
def IsLine (n : Nat) (cs : List Char) (last : Bool) (l : Line) : Prop :=
  ∃ ts q, Scans ⟨n, 1⟩ cs ts (.ok q) ∧ l = ⟨n, ts, if last then ⟨.eof, "", q⟩ else ⟨.newline, "\n", q⟩, none⟩

/-- The lines consist of the tokens of these texts, from the line of a number on. -/
inductive AreLines : Nat → List (List Char) → List Line → Prop
  | nil {n : Nat} : AreLines n [] []
  | cons {n : Nat} {cs : List Char} {css : List (List Char)} {l : Line} {ls : List Line}
      (line : IsLine n cs css.isEmpty l) (lines : AreLines (n + 1) css ls) : AreLines n (cs :: css) (l :: ls)

/-- The text has no fault. -/
def IsScanned (cs : List Char) : Prop := ∃ ts q, Scans .start cs ts (.ok q)

theorem IsScanned.at {cs : List Char} (h : IsScanned cs) (p : Position) : ∃ ts q, Scans p cs ts (.ok q) := by
  obtain ⟨ts, q, scans⟩ := h
  obtain ⟨ts', ending, scans', -, fine⟩ := scans.move p
  cases ending with
  | error e => cases fine
  | ok q' => exact ⟨ts', q', scans'⟩

theorem Scans.isScanned {p q : Position} {cs : List Char} {ts : List Token} (h : Scans p cs ts (.ok q)) :
    IsScanned cs := by
  obtain ⟨ts', ending, scans, -, fine⟩ := h.move .start
  cases ending with
  | error e => cases fine
  | ok q' => exact ⟨ts', q', scans⟩

theorem areLines_linesFrom {n : Nat} {cs : List Char} (scanned : ∀ l ∈ cs.splitOn '\n', IsScanned l) :
    AreLines n (cs.splitOn '\n') (Line.linesFrom n cs) := by
  induction cs using lines_induction generalizing n with
  | last cs unbroken =>
    rw [List.splitOn_eq_singleton unbroken] at scanned ⊢
    obtain ⟨ts, q, scans⟩ := (scanned cs List.mem_cons_self).at ⟨n, 1⟩
    rw [Line.linesFrom_last unbroken scans]
    exact .cons ⟨ts, q, scans, rfl⟩ .nil
  | line cs more unbroken ih =>
    rw [List.splitOn_append_cons_self_of_not_mem unbroken] at scanned ⊢
    obtain ⟨first, others⟩ := List.forall_mem_cons.mp scanned
    obtain ⟨ts, q, scans⟩ := first.at ⟨n, 1⟩
    rw [Line.linesFrom_append unbroken scans]
    refine .cons ⟨ts, q, scans, ?_⟩ (ih others)
    rw [if_neg (by simp)]

variable [Scalar α]

/-- A text that is read has no fault in its lines. -/
theorem isScanned_of_foldlM {n : Nat} {cs : List Char} {m m' : Netlist α}
    (read : (Line.linesFrom n cs).foldlM readLine m = .ok m') : ∀ l ∈ cs.splitOn '\n', IsScanned l := by
  have single {l : Line} {e : Error} {m : Netlist α} (fault : l.fault = some e)
      (read : [l].foldlM readLine m = .ok m') : False := by
    rw [List.foldlM_cons] at read
    obtain ⟨m₁, read, -⟩ := exists_of_bind_eq_ok read
    rw [fault_of_readLine read] at fault
    cases fault
  induction cs using lines_induction generalizing n m with
  | last cs unbroken =>
    obtain ⟨ts, ending, scans, -⟩ := exists_scans ⟨n, 1⟩ cs
    rw [List.splitOn_eq_singleton unbroken]
    cases ending with
    | ok q => exact List.forall_mem_singleton.mpr scans.isScanned
    | error e =>
      obtain ⟨l, fault, all, -⟩ := Line.linesFrom_fault unbroken scans
      exact (single fault (all ▸ read)).elim
  | line cs more unbroken ih =>
    obtain ⟨ts, ending, scans, -⟩ := exists_scans ⟨n, 1⟩ cs
    rw [List.splitOn_append_cons_self_of_not_mem unbroken]
    cases ending with
    | ok q =>
      rw [Line.linesFrom_append unbroken scans, List.foldlM_cons] at read
      obtain ⟨m₁, -, read⟩ := exists_of_bind_eq_ok read
      exact List.forall_mem_cons.mpr ⟨scans.isScanned, ih read⟩
    | error e =>
      obtain ⟨l, fault, -, all⟩ := Line.linesFrom_fault unbroken scans
      exact (single fault (all more ▸ read)).elim

/-! ## One line -/

/-- The line is that of an element: it starts with a name. -/
def isElementLine (cs : List Char) : Bool := (tokensFrom .start cs).1.head?.any (·.kind = .identifier)

omit [Scalar α] in
theorem IsLine.isElementLine {n : Nat} {cs : List Char} {last : Bool} {l : Line} (h : IsLine n cs last l) :
    Netlist.isElementLine cs = decide (l.next.kind = .identifier) := by
  obtain ⟨ts, q, scans, rfl⟩ := h
  obtain ⟨ts', ending, scans', same, fine⟩ := scans.move .start
  rw [Netlist.isElementLine, scans'.tokensFrom_eq]
  cases ending with
  | error e => cases fine
  | ok q' =>
    cases ts with
    | nil =>
      obtain rfl := List.map_eq_nil_iff.mp same
      cases last <;> rfl
    | cons t ts =>
      obtain ⟨t', ts', rfl, content, -⟩ := List.map_eq_cons_iff.mp same
      simp [Line.next, (Prod.mk.inj content).1]

omit [Scalar α] in
theorem IsLine.alike {n n' : Nat} {cs : List Char} {last last' : Bool} {l l' : Line} (h : IsLine n cs last l)
    (h' : IsLine n' cs last' l') : Line.Alike l l' := by
  obtain ⟨ts, q, scans, rfl⟩ := h
  obtain ⟨ts', q', scans', rfl⟩ := h'
  obtain ⟨ts'', ending, moved, same, -⟩ := scans.move ⟨n', 1⟩
  obtain ⟨rfl, -⟩ := moved.unique scans'
  refine ⟨same, ?_, ?_, rfl, rfl⟩
  · cases last
    · exact .inl rfl
    · exact .inr rfl
  · cases last'
    · exact .inl rfl
    · exact .inr rfl

omit [Scalar α] in
theorem IsLine.unique {n : Nat} {cs : List Char} {last : Bool} {l l' : Line} (h : IsLine n cs last l)
    (h' : IsLine n cs last l') : l = l' := by
  obtain ⟨ts, q, scans, rfl⟩ := h
  obtain ⟨ts', q', scans', rfl⟩ := h'
  obtain ⟨rfl, same⟩ := scans.unique scans'
  cases same
  rfl

/-- The text of a line spells an element, whose own line may be any. -/
def Spells (cs : List Char) (e : Element α) : Prop :=
  ∃ n last l rest, IsLine n cs last l ∧ l.takeElement = .ok (e, rest) ∧ rest.atEnd = true

/-- What a text spells is read wherever it stands. -/
theorem Spells.takeElement {cs : List Char} {e : Element α} (h : Spells cs e) {n : Nat} {last : Bool} {l : Line}
    (line : IsLine n cs last l) :
    ∃ rest, l.takeElement = .ok ({ e with line := n }, rest) ∧ rest.atEnd = true := by
  obtain ⟨n', last', l', rest', line', taken, ended⟩ := h
  obtain ⟨rest, taken, alike⟩ := (line'.alike line).takeElement taken
  obtain ⟨ts, q, scans, rfl⟩ := line
  exact ⟨rest, taken, alike.atEnd.trans ended⟩

/-- A text spells one element. -/
theorem Spells.unique {cs : List Char} {e e' : Element α} (h : Spells cs e) (h' : Spells cs e') :
    ({ e with line := 0 } : Element α) = { e' with line := 0 } := by
  obtain ⟨n, last, l, rest, line, taken, -⟩ := h
  obtain ⟨rest', taken', -⟩ := h'.takeElement line
  obtain ⟨rfl, -⟩ := Prod.mk.inj (Except.ok.inj (taken.symm.trans taken'))
  rfl

/-- The netlist with other elements. -/
def withElements (m : Netlist α) (es : List (Element α)) : Netlist α := { m with elements := es }

omit [Scalar α] in
theorem IsLine.starts {n : Nat} {cs : List Char} {last : Bool} {l : Line} (h : IsLine n cs last l)
    (element : Netlist.isElementLine cs = true) : l.next.kind = .identifier ∧ l.atEnd = false := by
  rw [h.isElementLine, decide_eq_true_eq] at element
  refine ⟨element, ?_⟩
  obtain ⟨ts, q, scans, rfl⟩ := h
  cases ts with
  | nil => cases last <;> cases element
  | cons t ts => rfl

theorem readLine_of_spells {cs : List Char} {e : Element α} (h : Spells cs e) {n : Nat} {last : Bool} {l : Line}
    (line : IsLine n cs last l) (m : Netlist α) :
    readLine m l = .ok (m.withElements (m.elements ++ [{ e with line := n }])) := by
  obtain ⟨rest, taken, ended⟩ := h.takeElement line
  exact readLine_eq_ok_iff.mpr (.element taken ended)

theorem spells_of_readLine {n : Nat} {cs : List Char} {last : Bool} {l : Line} (line : IsLine n cs last l)
    (element : isElementLine cs = true) {m m' : Netlist α} (read : readLine m l = .ok m') :
    ∃ e, Spells cs e ∧ m' = m.withElements (m.elements ++ [e]) := by
  obtain ⟨name, more⟩ := line.starts element
  cases readLine_eq_ok_iff.mp read with
  | blank ended => cases more.symm.trans ended
  | directive taken =>
    obtain ⟨word, directive, l₁, h₁, first, -⟩ := Line.takeDirective_eq_ok_iff.mp taken
    cases name.symm.trans (Line.next_kind_of_take first)
  | element taken ended => exact ⟨_, ⟨n, last, l, _, line, taken, ended⟩, rfl⟩

omit [Scalar α] in
theorem addNode_withElements (m : Netlist α) (es : List (Element α)) (node : String) :
    (m.withElements es).addNode node = (m.addNode node).withElements es := by
  show (if (node == "0" || m.nodes.contains node) = true then _ else _) = _
  unfold addNode
  split <;> rfl

/-- A directive does nothing to the elements and does not depend on them. -/
theorem Line.Declares.withElements {m m' : Netlist α} {l rest : Line} {directive : String}
    (form : Line.Declares m l directive m' rest) (es : List (Element α)) :
    Line.Declares (m.withElements es) l directive (m'.withElements es) rest := by
  cases form with
  | input first nameless => exact .input first nameless
  | signal first second => exact .signal first second
  | output first => exact .output first
  | node first =>
    rw [← addNode_withElements]
    exact .node first
  | parameter first fresh => exact .parameter first fresh
  | model first fresh => exact .model first fresh

/-- Other lines do nothing to the elements and do not depend on them. -/
theorem readLine_withElements {n : Nat} {cs : List Char} {last : Bool} {l : Line} (line : IsLine n cs last l)
    (other : isElementLine cs = false) {m m' : Netlist α} (read : readLine m l = .ok m') (es : List (Element α)) :
    readLine (m.withElements es) l = .ok (m'.withElements es) := by
  rw [line.isElementLine, decide_eq_false_iff_not] at other
  refine readLine_eq_ok_iff.mpr ?_
  cases readLine_eq_ok_iff.mp read with
  | blank ended sound => exact .blank ended sound
  | directive taken ended =>
    obtain ⟨word, directive, l₁, h₁, first, spelled, form⟩ := Line.takeDirective_eq_ok_iff.mp taken
    refine .directive (Line.takeDirective_eq_ok_iff.mpr ?_) ended
    exact ⟨word, directive, l₁, h₁, first, spelled, form.withElements es⟩
  | element taken =>
    obtain ⟨kind, name, l₁, nodes, l₂, introduced, -⟩ := Line.takeElement_eq_ok_iff.mp taken
    obtain ⟨word, l', h, first⟩ := introduced.exists_take
    exact absurd (Line.next_kind_of_take first) other

/-! ## All lines -/

/-- The lines without the element lines; where one was, there is a gap. -/
def otherLines (css : List (List Char)) : List (Option (List Char)) :=
  css.map fun cs => if isElementLine cs then none else some cs

theorem otherLines_cons_of_element {cs : List Char} (element : isElementLine cs = true) (css : List (List Char)) :
    otherLines (cs :: css) = none :: otherLines css := by
  rw [otherLines, List.map_cons, if_pos element]
  rfl

theorem otherLines_cons_of_other {cs : List Char} (other : isElementLine cs = false) (css : List (List Char)) :
    otherLines (cs :: css) = some cs :: otherLines css := by
  rw [otherLines, List.map_cons, if_neg (by rw [other]; nofun)]
  rfl

theorem isEmpty_otherLines (css : List (List Char)) : (otherLines css).isEmpty = css.isEmpty := List.isEmpty_map

/-- Reading the lines but the element lines, from the line of a number on, makes one netlist of another. -/
inductive ReadsOthers : Nat → List (Option (List Char)) → Netlist α → Netlist α → Prop
  | nil {n : Nat} {m : Netlist α} : ReadsOthers n [] m m
  | gap {n : Nat} {slots : List (Option (List Char))} {m m' : Netlist α} (others : ReadsOthers (n + 1) slots m m') :
      ReadsOthers n (none :: slots) m m'
  | line {n : Nat} {cs : List Char} {slots : List (Option (List Char))} {l : Line} {m m₁ m' : Netlist α}
      (line : IsLine n cs slots.isEmpty l) (read : readLine m l = .ok m₁) (others : ReadsOthers (n + 1) slots m₁ m') :
      ReadsOthers n (some cs :: slots) m m'

theorem elements_of_readLine {n : Nat} {cs : List Char} {last : Bool} {l : Line} (line : IsLine n cs last l)
    (other : isElementLine cs = false) {m m' : Netlist α} (read : readLine m l = .ok m') :
    m'.elements = m.elements := by
  have same := read.symm.trans (readLine_withElements line other read m.elements)
  rw [Except.ok.inj same]
  rfl

/-- What is read consists of the elements that the element lines spell, and of what the other lines make. -/
theorem spells_of_foldlM {n : Nat} {css : List (List Char)} {ls : List Line} (lines : AreLines n css ls)
    {m m' : Netlist α} (read : ls.foldlM readLine m = .ok m') :
    ∃ es, List.Forall₂ Spells (css.filter isElementLine) es ∧ m'.elements = m.elements ++ es ∧
      ReadsOthers n (otherLines css) (m.withElements []) (m'.withElements []) := by
  induction lines generalizing m with
  | nil =>
    cases read
    exact ⟨[], .nil, (List.append_nil _).symm, .nil⟩
  | @cons n cs css l ls line lines ih =>
    rw [List.foldlM_cons] at read
    obtain ⟨m₁, first, read⟩ := exists_of_bind_eq_ok read
    obtain ⟨es, spells, elements, others⟩ := ih read
    cases element : isElementLine cs with
    | true =>
      obtain ⟨e, spelled, rfl⟩ := spells_of_readLine line element first
      rw [List.filter_cons_of_pos element, otherLines_cons_of_element element]
      exact ⟨e :: es, .cons spelled spells, elements.trans (List.append_assoc ..), .gap others⟩
    | false =>
      have read := readLine_withElements line element first []
      rw [List.filter_cons_of_neg (by rw [element]; nofun), otherLines_cons_of_other element]
      rw [elements_of_readLine line element first] at elements
      exact ⟨es, spells, elements, .line ((isEmpty_otherLines css).symm ▸ line) read others⟩

/-- The elements that the element lines spell, and what the other lines make, are read. -/
theorem foldlM_of_spells {n : Nat} {css : List (List Char)} {ls : List Line} (lines : AreLines n css ls)
    {es : List (Element α)} (spells : List.Forall₂ Spells (css.filter isElementLine) es) {m r : Netlist α}
    (others : ReadsOthers n (otherLines css) (m.withElements []) r) :
    ∃ es', List.Forall₂ Spells (css.filter isElementLine) es' ∧
      ls.foldlM readLine m = .ok (r.withElements (m.elements ++ es')) := by
  induction lines generalizing m es with
  | nil =>
    cases others
    exact ⟨[], .nil, by rw [List.append_nil]; rfl⟩
  | @cons n cs css l ls line lines ih =>
    rw [List.foldlM_cons]
    cases element : isElementLine cs with
    | true =>
      rw [List.filter_cons_of_pos element] at spells ⊢
      rw [otherLines_cons_of_element element] at others
      cases others with
      | gap others =>
      cases spells with
      | @cons _ e _ es spelled spells =>
      obtain ⟨rest, taken, ended⟩ := spelled.takeElement line
      obtain ⟨es', spells', read⟩ := ih (m := m.withElements (m.elements ++ [{ e with line := n }])) spells others
      refine ⟨_ :: es', .cons ⟨n, _, l, rest, line, taken, ended⟩ spells', ?_⟩
      rw [readLine_of_spells spelled line m]
      exact read.trans (by rw [withElements, withElements, List.append_assoc]; rfl)
    | false =>
      rw [List.filter_cons_of_neg (by rw [element]; nofun)] at spells ⊢
      rw [otherLines_cons_of_other element] at others
      cases others with
      | @line _ _ _ l' _ m₁ _ line' read others =>
      obtain rfl := line.unique ((isEmpty_otherLines css) ▸ line')
      -- the elements before this line are carried along
      have bare : (m₁.withElements m.elements).withElements [] = m₁ := by
        rw [show [] = m₁.elements from (elements_of_readLine line element read).symm]
        rfl
      have first := readLine_withElements line element read m.elements
      obtain ⟨es', spells', read⟩ := ih (m := m₁.withElements m.elements) spells (bare.symm ▸ others)
      exact ⟨es', spells', (congrArg (· >>= fun m => ls.foldlM readLine m) first).trans read⟩

end AnalogCircuit.Netlist
