import AnalogCircuit.Proofs.Breaks
import AnalogCircuit.Proofs.Taking
/-!
# The lines of a text

The lines that are read are those of the text, each with its tokens. A reader of elements finds the same in lines that
hold the same, wherever they stand.
-/

namespace AnalogCircuit.Netlist

/-! ## Lines of a text -/

namespace Line

/-- The lines of a text that starts on a line of this number. -/
def linesFrom (n : Nat) (cs : List Char) : List Line :=
  ofTokens (tokensFrom ⟨n, 1⟩ cs).2 (tokensFrom ⟨n, 1⟩ cs).1

theorem ofText_eq_linesFrom (text : String) : ofText text = linesFrom 1 text.toList := rfl

variable {n : Nat} {ts : List Token} {q : Position}

theorem ofTokens_cons {fault : Option Error} {t : Token} {rest : List Token} {l : Line} {ls : List Line}
    (newline : t.kind ≠ .newline) (eof : t.kind ≠ .eof) (found : ofTokens fault rest = l :: ls) :
    ofTokens fault (t :: rest) = { l with number := t.line, tokens := t :: l.tokens } :: ls := by
  rw [ofTokens]
  split
  · next same => exact absurd same newline
  · next same => exact absurd same eof
  · rw [found]

/-- Tokens of one line come in front of what the rest starts with. -/
theorem ofTokens_append {fault : Option Error} {rest : List Token} {l : Line} {ls : List Line}
    (line : ∀ t ∈ ts, t.line = n ∧ t.kind ≠ .newline ∧ t.kind ≠ .eof)
    (found : ofTokens fault rest = l :: ls) (number : l.number = n ∨ ts ≠ []) :
    ofTokens fault (ts ++ rest) = { l with number := n, tokens := ts ++ l.tokens } :: ls := by
  induction ts with
  | nil =>
    rw [List.nil_append, found, List.nil_append, ← number.resolve_right (absurd rfl)]
  | cons t ts ih =>
    obtain ⟨⟨same, newline, eof⟩, others⟩ := List.forall_mem_cons.mp line
    cases ts with
    | nil => rw [List.singleton_append, ofTokens_cons newline eof found, same]; rfl
    | cons t' ts =>
      rw [List.cons_append, ofTokens_cons newline eof (ih others (.inr nofun)), same]
      rfl

variable {cs more : List Char}

/-- A line with a break behind it. -/
theorem linesFrom_append (unbroken : '\n' ∉ cs) (scans : Scans ⟨n, 1⟩ cs ts (.ok q)) (more : List Char) :
    linesFrom n (cs ++ '\n' :: more) = ⟨n, ts, ⟨.newline, "\n", q⟩, none⟩ :: linesFrom (n + 1) more := by
  obtain ⟨line, last⟩ := scans.onLine unbroken
  have last : q.line = n := last q rfl
  have next : q.next '\n' = ⟨n + 1, 1⟩ := by simp [Position.next, last]
  obtain ⟨ts', ending, rest, same⟩ := exists_scans ⟨n + 1, 1⟩ more
  have whole := (scans.append_break (next ▸ rest)).tokensFrom_eq
  rw [linesFrom, whole, linesFrom, same, List.append_assoc, List.cons_append]
  exact (ofTokens_append line rfl (.inl last)).trans (by simp)

/-- The last line. -/
theorem linesFrom_last (unbroken : '\n' ∉ cs) (scans : Scans ⟨n, 1⟩ cs ts (.ok q)) :
    linesFrom n cs = [⟨n, ts, ⟨.eof, "", q⟩, none⟩] := by
  obtain ⟨line, last⟩ := scans.onLine unbroken
  rw [linesFrom, scans.tokensFrom_eq]
  exact (ofTokens_append line rfl (.inl (last q rfl))).trans (by simp)

/-- Nothing comes behind a fault. -/
theorem linesFrom_fault {e : Error} (unbroken : '\n' ∉ cs) (scans : Scans ⟨n, 1⟩ cs ts (.error e)) :
    ∃ l, l.fault = some e ∧ linesFrom n cs = [l] ∧ ∀ more, linesFrom n (cs ++ '\n' :: more) = [l] := by
  have same (more : List Char) : linesFrom n (cs ++ '\n' :: more) = linesFrom n cs := by
    rw [linesFrom, linesFrom, (scans.append_fault more).tokensFrom_eq, scans.tokensFrom_eq]
  have found : ofTokens (some e) [] = [⟨1, [], ⟨.eof, "", .start⟩, some e⟩] := rfl
  have whole : linesFrom n cs = ofTokens (some e) ts := by
    rw [linesFrom, scans.tokensFrom_eq]
    exact congrArg _ (List.append_nil ts)
  cases ts with
  | nil => exact ⟨_, rfl, whole, fun more => (same more).trans whole⟩
  | cons t ts =>
    have all := ofTokens_append (scans.onLine unbroken).1 found (.inr nofun)
    rw [List.append_nil] at all
    exact ⟨_, rfl, whole.trans all, fun more => (same more).trans (whole.trans all)⟩

/-! ## Lines that hold the same -/

/-- The token ends a line. -/
def EndsLine (t : Token) : Prop := t.kind = .newline ∨ t.kind = .eof

/-- Two lines without faults hold the same tokens, wherever they stand and whichever way they end. -/
structure Alike (l l' : Line) : Prop where
  tokens : l'.tokens.map Token.content = l.tokens.map Token.content
  ending : EndsLine l.ending
  ending' : EndsLine l'.ending
  fault : l.fault = none
  fault' : l'.fault = none

namespace Alike

variable {l l' rest : Line}

theorem atEnd (h : Alike l l') : l'.atEnd = l.atEnd := by
  have same := congrArg List.isEmpty h.tokens
  rwa [List.isEmpty_map, List.isEmpty_map] at same

/-- Whether a token of this kind is next is the same in both, unless it is one that ends lines. -/
theorem next (h : Alike l l') {kind : TokenKind} (newline : kind ≠ .newline) (eof : kind ≠ .eof) :
    l'.next.kind = kind ↔ l.next.kind = kind := by
  have ends {t : Token} (h : EndsLine t) : t.kind ≠ kind := by
    rintro rfl
    exact h.elim newline eof
  have tokens := h.tokens
  unfold Line.next
  cases first : l.tokens with
  | nil =>
    rw [first, List.map_nil, List.map_eq_nil_iff] at tokens
    rw [tokens]
    exact iff_of_false (ends h.ending') (ends h.ending)
  | cons t ts =>
    rw [first] at tokens
    cases first' : l'.tokens with
    | nil => rw [first'] at tokens; cases tokens
    | cons t' ts' =>
      rw [first', List.map_cons, List.map_cons, List.cons.injEq] at tokens
      rw [List.headD_cons, List.headD_cons, (Prod.mk.inj tokens.1).1]

theorem next_ne (h : Alike l l') {kind : TokenKind} (newline : kind ≠ .newline) (eof : kind ≠ .eof)
    (other : l.next.kind ≠ kind) : l'.next.kind ≠ kind := other ∘ (h.next newline eof).mp

/-- A step past a token in one line is one in the other. -/
theorem take (h : Alike l l') {kind : TokenKind} {t : Token} {lt : rest.tokens.length < l.tokens.length}
    (taken : l.take kind = .ok ⟨(t, rest), lt⟩) : ∃ t' rest' lt', l'.take kind = .ok ⟨(t', rest'), lt'⟩ ∧
      t'.text = t.text ∧ Alike rest rest' := by
  obtain ⟨rfl, tokens, same⟩ := take_eq_ok taken
  have content := h.tokens
  rw [tokens, List.map_cons] at content
  obtain ⟨t', ts', tokens', first, others⟩ := List.map_eq_cons_iff.mp content
  obtain ⟨kind, text⟩ := Prod.mk.inj first
  obtain ⟨lt', taken'⟩ := take_of_tokens tokens' fun _ => h.fault'
  refine ⟨t', _, lt', kind ▸ taken', text, ?_⟩
  rw [same]
  exact { h with tokens := others }

/-- The token that is taken is the same, apart from where it stands. -/
theorem take_same (h : Alike l l') {t : Token} {lt : rest.tokens.length < l.tokens.length}
    (taken : l.take t.kind = .ok ⟨(t, rest), lt⟩) : ∃ t' rest' lt', l'.take t'.kind = .ok ⟨(t', rest'), lt'⟩ ∧
      t'.kind = t.kind ∧ t'.text = t.text ∧ Alike rest rest' := by
  obtain ⟨t', rest', lt', taken', text, alike⟩ := h.take taken
  obtain ⟨kind, -⟩ := take_eq_ok taken'
  exact ⟨t', rest', lt', kind.symm ▸ taken', kind, text, alike⟩

theorem takeNode (h : Alike l l') {node : String} {lt : rest.tokens.length < l.tokens.length}
    (taken : l.takeNode = .ok ⟨(node, rest), lt⟩) : ∃ rest' lt', l'.takeNode = .ok ⟨(node, rest'), lt'⟩ ∧
      Alike rest rest' := by
  obtain ⟨t, first, valid, named⟩ := takeNode_eq_ok_iff.mp taken
  obtain ⟨t', rest', lt', first', kind, text, alike⟩ := h.take_same first
  exact ⟨rest', lt', takeNode_eq_ok_iff.mpr ⟨t', first', by rwa [kind, text], by rwa [text]⟩, alike⟩

variable {α : Type} [Scalar α]

theorem takeNumber (h : Alike l l') {v : α} {lt : rest.tokens.length < l.tokens.length}
    (taken : l.takeNumber = .ok ⟨(v, rest), lt⟩) : ∃ rest' lt', l'.takeNumber = .ok ⟨(v, rest'), lt'⟩ ∧
      Alike rest rest' := by
  obtain ⟨t, first, valid, value⟩ := takeNumber_eq_ok_iff.mp taken
  obtain ⟨t', rest', lt', first', kind, text, alike⟩ := h.take_same first
  exact ⟨rest', lt', takeNumber_eq_ok_iff.mpr ⟨t', first', by rwa [kind], by rwa [text]⟩, alike⟩

theorem takeValue (h : Alike l l') {e : Expr α} {lt : rest.tokens.length < l.tokens.length}
    (taken : l.takeValue = .ok ⟨(e, rest), lt⟩) : ∃ rest' lt', l'.takeValue = .ok ⟨(e, rest'), lt'⟩ ∧
      Alike rest rest' := by
  obtain ⟨t, first, value⟩ := takeValue_eq_ok_iff.mp taken
  obtain ⟨t', rest', lt', first', kind, text, alike⟩ := h.take_same first
  exact ⟨rest', lt', takeValue_eq_ok_iff.mpr ⟨t', first', value.of_content kind text⟩, alike⟩

omit [Scalar α] in
theorem connects (h : Alike l l') {terminals nodes : List String} (form : Connects terminals l nodes rest) :
    ∃ rest', Connects terminals l' nodes rest' ∧ Alike rest rest' := by
  induction form generalizing l' with
  | all => exact ⟨l', .all, h⟩
  | ended ended => exact ⟨l', .ended (h.atEnd.trans ended), h⟩
  | node first _ ih =>
    obtain ⟨l₁', lt₁, first', alike⟩ := h.takeNode first
    obtain ⟨rest', others, alike⟩ := ih alike
    exact ⟨rest', .node first' others, alike⟩

omit [Scalar α] in
theorem introduces (h : Alike l l') {kind : ElementKind} {name : String} (form : l.Introduces kind name rest) :
    ∃ rest', l'.Introduces kind name rest' ∧ Alike rest rest' := by
  cases form with
  | keyword first found second =>
    obtain ⟨word', l₁', lt₁, first', same, alike⟩ := h.take first
    obtain ⟨name', rest', lt₂, second', same', alike⟩ := alike.take second
    exact ⟨rest', same' ▸ .keyword first' (same ▸ found) second', alike⟩
  | name first other found =>
    obtain ⟨word', rest', lt', first', same, alike⟩ := h.take first
    exact ⟨rest', same ▸ .name first' (same ▸ other) (same ▸ found), alike⟩

omit [Scalar α] in
theorem addValue_move (e : Element α) (v : Expr α) (n : Nat) :
    ({ e with line := n } : Element α).addValue v = { e.addValue v with line := n } := by
  unfold Element.addValue
  split <;> rfl

/-- The number of a line is only noted in the element. -/
theorem sets (h : Alike l l') {e e' : Element α} (n : Nat) (form : Sets e l e' rest) :
    ∃ rest', Sets { e with line := n } l' { e' with line := n } rest' ∧ Alike rest rest' := by
  induction form generalizing l' with
  | ended ended => exact ⟨l', .ended (h.atEnd.trans ended), h⟩
  | assigned first second third _ ih =>
    obtain ⟨word', l₁', lt₁, first', same, alike⟩ := h.take first
    obtain ⟨sign', l₂', lt₂, second', -, alike⟩ := alike.take second
    obtain ⟨l₃', lt₃, third', alike⟩ := alike.takeValue third
    obtain ⟨rest', others, alike⟩ := ih alike
    exact ⟨rest', .assigned first' second' third' (same ▸ others), alike⟩
  | keyword first plain keyword second _ ih =>
    obtain ⟨word', l₁', lt₁, first', same, alike₁⟩ := h.take first
    obtain ⟨l₂', lt₂, second', alike⟩ := alike₁.takeValue second
    obtain ⟨rest', others, alike⟩ := ih alike
    exact ⟨rest', .keyword first' (alike₁.next_ne nofun nofun plain) (same ▸ keyword) second' (same ▸ others), alike⟩
  | number first plain other denotes _ ih =>
    obtain ⟨word', l₁', lt₁, first', same, alike₁⟩ := h.take first
    obtain ⟨rest', others, alike⟩ := ih alike₁
    rw [← addValue_move] at others
    exact ⟨rest', .number first' (alike₁.next_ne nofun nofun plain) (same ▸ other) (same ▸ denotes) others, alike⟩
  | model first plain other denotes _ ih =>
    obtain ⟨word', l₁', lt₁, first', same, alike₁⟩ := h.take first
    obtain ⟨rest', others, alike⟩ := ih alike₁
    exact ⟨rest', .model first' (alike₁.next_ne nofun nofun plain) (same ▸ other) (same ▸ denotes) (same ▸ others), alike⟩
  | value kind first _ ih =>
    obtain ⟨l₁', lt₁, first', alike⟩ := h.takeValue first
    obtain ⟨rest', others, alike⟩ := ih alike
    rw [← addValue_move] at others
    refine ⟨rest', .value (kind.imp (fun same => ?_) fun same => ?_) first' others, alike⟩
    · exact (h.next (by decide) (by decide)).mpr same
    · exact (h.next (by decide) (by decide)).mpr same

theorem takeElement (h : Alike l l') {e : Element α} (taken : l.takeElement = .ok (e, rest)) :
    ∃ rest', l'.takeElement = .ok ({ e with line := l'.number }, rest') ∧ Alike rest rest' := by
  obtain ⟨kind, name, l₁, nodes, l₂, first, second, all, third⟩ := takeElement_eq_ok_iff.mp taken
  obtain ⟨l₁', first', alike⟩ := h.introduces first
  obtain ⟨l₂', second', alike⟩ := alike.connects second
  obtain ⟨rest', third', alike⟩ := alike.sets l'.number third
  have number : l₂'.number = l'.number :=
    (stable_number l'.number).connects ((stable_number l'.number).introduces rfl first') second'
  exact ⟨rest', takeElement_eq_ok_iff.mpr ⟨kind, name, l₁', nodes, l₂', first', second', all, number ▸ third'⟩, alike⟩

end Alike

end Line

end AnalogCircuit.Netlist
