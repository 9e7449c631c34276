import AnalogCircuit.Proofs.LineForms
/-!
# What is left of a line

All of the reading of a line is made of steps past single tokens. So what every such step keeps of a line is kept by
everything that is read of it, and nobody reads past a fault.
-/

namespace AnalogCircuit.Netlist

namespace Line

/-! ## What reading keeps -/

/-- Every step past a token keeps the property of what is left of the line. -/
def Stable (P : Line → Prop) : Prop :=
  ∀ l rest kind t h, P l → l.take kind = .ok ⟨(t, rest), h⟩ → P rest

namespace Stable

variable {P : Line → Prop} {l rest : Line}

theorem takeNode {node : String} {h : rest.tokens.length < l.tokens.length} (stable : Stable P) (kept : P l)
    (taken : l.takeNode = .ok ⟨(node, rest), h⟩) : P rest := by
  obtain ⟨t, first, -⟩ := takeNode_eq_ok_iff.mp taken
  exact stable _ _ _ _ _ kept first

variable {α : Type} [Scalar α]

theorem takeNumber {v : α} {h : rest.tokens.length < l.tokens.length} (stable : Stable P) (kept : P l)
    (taken : l.takeNumber = .ok ⟨(v, rest), h⟩) : P rest := by
  obtain ⟨t, first, -⟩ := takeNumber_eq_ok_iff.mp taken
  exact stable _ _ _ _ _ kept first

theorem takeValue {e : Expr α} {h : rest.tokens.length < l.tokens.length} (stable : Stable P) (kept : P l)
    (taken : l.takeValue = .ok ⟨(e, rest), h⟩) : P rest := by
  obtain ⟨t, first, -⟩ := takeValue_eq_ok_iff.mp taken
  exact stable _ _ _ _ _ kept first

theorem configures {settings settings' : List (String × α)} (stable : Stable P) (kept : P l)
    (form : Configures settings l settings' rest) : P rest := by
  induction form with
  | closed first => exact stable _ _ _ _ _ kept first
  | assigned first second third _ ih =>
    exact ih (stable.takeNumber (stable _ _ _ _ _ (stable _ _ _ _ _ kept first) second) third)

theorem declaresModel {m : Model α} (stable : Stable P) (kept : P l) (form : DeclaresModel l m rest) : P rest := by
  cases form with
  | configured first second known third fourth =>
    have kept := stable _ _ _ _ _ (stable _ _ _ _ _ kept first) second
    exact stable.configures (stable _ _ _ _ _ kept third) fourth
  | bare first second => exact stable _ _ _ _ _ (stable _ _ _ _ _ kept first) second

theorem declaresParameter {p : Parameter α} (stable : Stable P) (kept : P l) (form : DeclaresParameter l p rest) :
    P rest := by
  cases form with
  | assigned first second third => exact stable.takeNumber (stable _ _ _ _ _ (stable _ _ _ _ _ kept first) second) third
  | plain first unassigned second => exact stable.takeNumber (stable _ _ _ _ _ kept first) second

theorem takeDirective {n n' : Netlist α} (stable : Stable P) (kept : P l)
    (taken : l.takeDirective n = .ok (n', rest)) : P rest := by
  obtain ⟨word, directive, l₁, h₁, first, -, form⟩ := takeDirective_eq_ok_iff.mp taken
  have kept := stable _ _ _ _ _ kept first
  cases form with
  | input first | output first | node first => exact stable.takeNode kept first
  | signal first second => exact stable _ _ _ _ _ (stable.takeNode kept first) second
  | parameter first => exact stable.declaresParameter kept first
  | model first => exact stable.declaresModel kept first

omit [Scalar α] in
theorem connects {terminals nodes : List String} (stable : Stable P) (kept : P l)
    (form : Connects terminals l nodes rest) : P rest := by
  induction form with
  | all | ended => exact kept
  | node first _ ih => exact ih (stable.takeNode kept first)

theorem sets {e e' : Element α} (stable : Stable P) (kept : P l) (form : Sets e l e' rest) : P rest := by
  induction form with
  | ended => exact kept
  | assigned first second third _ ih =>
    exact ih (stable.takeValue (stable _ _ _ _ _ (stable _ _ _ _ _ kept first) second) third)
  | keyword first _ _ second _ ih => exact ih (stable.takeValue (stable _ _ _ _ _ kept first) second)
  | number first _ _ _ _ ih | model first _ _ _ _ ih => exact ih (stable _ _ _ _ _ kept first)
  | value _ first _ ih => exact ih (stable.takeValue kept first)

omit [Scalar α] in
theorem introduces {kind : ElementKind} {name : String} (stable : Stable P) (kept : P l)
    (form : Introduces l kind name rest) : P rest := by
  cases form with
  | keyword first found second => exact stable _ _ _ _ _ (stable _ _ _ _ _ kept first) second
  | name first => exact stable _ _ _ _ _ kept first

theorem takeElement {e : Element α} (stable : Stable P) (kept : P l) (taken : l.takeElement = .ok (e, rest)) :
    P rest := by
  obtain ⟨kind, name, l₁, nodes, l₂, first, second, -, third⟩ := takeElement_eq_ok_iff.mp taken
  exact stable.sets (stable.connects (stable.introduces kept first) second) third

end Stable

theorem stable_number (n : Nat) : Stable fun l => l.number = n := by
  intro l rest kind t h number taken
  obtain ⟨-, -, same⟩ := take_eq_ok taken
  rw [same]
  exact number

/-- A line with a fault behind it is not read to its end. -/
theorem stable_fault (e : Error) : Stable fun l => l.fault = some e ∧ l.tokens ≠ [] := by
  rintro l rest kind t h ⟨fault, -⟩ taken
  unfold take at taken
  split at taken
  · cases taken
  split at taken
  · split at taken
    · cases taken
    · next more =>
      cases taken
      refine ⟨fault, ?_⟩
      rintro rfl
      exact more e _ rfl fault HEq.rfl
  · cases taken

end Line

/-- What is read has no fault. -/
theorem fault_of_readLine {α : Type} [Scalar α] {n n' : Netlist α} {l : Line} (read : readLine n l = .ok n') :
    l.fault = none := by
  cases fault : l.fault with
  | none => rfl
  | some e =>
    exfalso
    -- the rest of the line has the fault too, and so it is not the end
    have stuck {rest : Line} (ended : rest.atEnd = true) : ¬(rest.fault = some e ∧ rest.tokens ≠ []) :=
      fun kept => kept.2 (List.isEmpty_iff.mp ended)
    have start {rest : Line} (shorter : rest.tokens.length < l.tokens.length) : l.fault = some e ∧ l.tokens ≠ [] :=
      ⟨fault, List.ne_nil_of_length_pos (Nat.zero_lt_of_lt shorter)⟩
    cases readLine_eq_ok_iff.mp read with
    | blank ended sound => cases sound.symm.trans fault
    | directive taken ended =>
      obtain ⟨word, directive, l₁, shorter, -⟩ := Line.takeDirective_eq_ok_iff.mp taken
      exact stuck ended ((Line.stable_fault e).takeDirective (start shorter) taken)
    | element taken ended =>
      obtain ⟨kind, name, l₁, nodes, l₂, introduced, -⟩ := Line.takeElement_eq_ok_iff.mp taken
      obtain ⟨word, l', shorter, -⟩ := introduced.exists_take
      exact stuck ended ((Line.stable_fault e).takeElement (start shorter) taken)

end AnalogCircuit.Netlist
