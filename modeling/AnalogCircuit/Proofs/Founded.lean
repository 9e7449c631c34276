import AnalogCircuit.Proofs.EmissionSteps
/-!
# Emitted code is grounded

Whatever is emitted reads fixed registers, constants and what was emitted before it. In front of a loop nothing is
put that reads what the loop computes, and behind it all that was computed inside is forgotten; so the code behind
the loop does not depend on how many passes there were. This holds of all expressions and for any arithmetic, as
nothing is said about values.
-/

namespace AnalogCircuit

variable {α : Type}

namespace Emission

/-! ## The invariant -/

/-- The register may be written: it is fixed and assignable, or was allocated, but not for a constant. -/
def Writable (first : Reg) (assignable : Reg → Prop) (s : Emission α) (r : Reg) : Prop :=
  r < first ∧ assignable r ∨ first ≤ r ∧ r < s.next ∧ ∀ c ∈ s.constants, c.1 ≠ r

/-- All that has been emitted is grounded, and what is remembered can be read. -/
structure Founded (first : Reg) (assignable : Reg → Prop) (past : List Instruction) (s : Emission α) :
    Prop where
  first_le : first ≤ s.next
  closed : s.body? = none → s.varying = []
  constants : ∀ c ∈ s.constants, first ≤ c.1 ∧ c.1 < s.next
  outer : ∀ i ∈ past ++ s.pending, s.Writable first assignable i.target
  inner : ∀ i ∈ s.inner, s.Writable first assignable i.target ∧ i.target ∈ s.varying
  outer_grounded : Grounded (s.Ground first) (past ++ s.pending)
  inner_grounded : Grounded (s.Outside first past) s.inner
  computed : ∀ c ∈ s.computed, s.Available first past c.2

variable {first : Reg} {assignable : Reg → Prop} {past : List Instruction} {s s' : Emission α}

/-- Registers have been allocated between the two states, some of them for constants. -/
structure Allocates (s s' : Emission α) : Prop where
  next : s.next ≤ s'.next
  constants : ∀ c ∈ s.constants, c ∈ s'.constants
  allocated : ∀ c ∈ s'.constants, c ∈ s.constants ∨ s.next ≤ c.1

namespace Allocates

theorem refl (s : Emission α) : Allocates s s := ⟨Nat.le_refl _, fun _ h => h, fun _ h => .inl h⟩

theorem trans {s'' : Emission α} (h : Allocates s s') (h' : Allocates s' s'') : Allocates s s'' where
  next := Nat.le_trans h.next h'.next
  constants c hc := h'.constants c (h.constants c hc)
  allocated c hc := (h'.allocated c hc).elim (h.allocated c) fun hc => .inr (Nat.le_trans h.next hc)

/-- No constant is put into a register that is in use. -/
theorem writable (h : Allocates s s') {r : Reg} (hr : s.Writable first assignable r) :
    s'.Writable first assignable r := by
  rcases hr with hr | ⟨low, high, others⟩
  · exact .inl hr
  · refine .inr ⟨low, Nat.lt_of_lt_of_le high h.next, fun c hc => ?_⟩
    rcases h.allocated c hc with hc | hc
    · exact others c hc
    · exact (Nat.ne_of_lt (Nat.lt_of_lt_of_le high hc)).symm

end Allocates

theorem Extends.allocates (h : Extends s s') : Allocates s s' := ⟨h.next, h.constants, h.allocated⟩

/-! ## Single steps -/

theorem founded_start (first : Reg) (assignable : Reg → Prop) :
    Founded first assignable [] (start first : Emission α) where
  first_le := Nat.le_refl _
  closed _ := rfl
  constants _ h := absurd h List.not_mem_nil
  outer _ h := absurd h List.not_mem_nil
  inner _ h := absurd h List.not_mem_nil
  outer_grounded := trivial
  inner_grounded := trivial
  computed _ h := absurd h List.not_mem_nil

theorem Founded.remember (h : Founded first assignable past s) (e : Expr α) {r : Reg}
    (hr : s.Available first past r) : Founded first assignable past (s.remember e r) :=
  { h with computed := List.forall_mem_cons.mpr ⟨hr, h.computed⟩ }

theorem Founded.allocate (h : Founded first assignable past s) (v : α) :
    Founded first assignable past
      { s with next := s.next + 1, constants := s.constants ++ [(s.next, v)] } := by
  have ext := Extends.allocate s v
  refine ⟨Nat.le_succ_of_le h.first_le, h.closed, ?_, ?_, ?_, ?_, ?_, ?_⟩
  · refine List.forall_mem_append.mpr ⟨fun c hc => ?_, List.forall_mem_singleton.mpr ?_⟩
    · exact ⟨(h.constants c hc).1, Nat.lt_succ_of_lt (h.constants c hc).2⟩
    · exact ⟨h.first_le, Nat.lt_succ_self _⟩
  · exact fun i hi => ext.allocates.writable (h.outer i hi)
  · exact fun i hi => ⟨ext.allocates.writable (h.inner i hi).1, (h.inner i hi).2⟩
  · exact h.outer_grounded.mono fun _ hr => hr.mono ext.constants
  · exact h.inner_grounded.mono fun _ => ext.outside
  · exact fun c hc => ext.available (h.computed c hc)

/-- A new register holds no constant. -/
theorem Founded.writable_next (h : Founded first assignable past s) {s' : Emission α}
    (next : s'.next = s.next + 1) (constants : s'.constants = s.constants) :
    s'.Writable first assignable s.next := by
  refine .inr ⟨h.first_le, next ▸ Nat.lt_succ_self _, fun c hc => ?_⟩
  exact Nat.ne_of_lt (h.constants c (constants ▸ hc)).2

theorem Founded.pushInner (h : Founded first assignable past s) {body : List Instruction}
    (isOpen : s.body? = some body) {o : Operation} (operands : ∀ r ∈ o.operands, s.Available first past r) :
    Founded first assignable past
      { s with next := s.next + 1, varying := s.next :: s.varying,
               body? := some (body ++ [⟨s.next, o⟩]) } := by
  have ext := Extends.pushInner isOpen o
  have inner : s.inner = body := by rw [Emission.inner, isOpen]; rfl
  refine ⟨Nat.le_succ_of_le h.first_le, ?_, ?_, ?_, ?_, ?_, ?_, ?_⟩
  · intro closed
    cases closed
  · exact fun c hc => ⟨(h.constants c hc).1, Nat.lt_succ_of_lt (h.constants c hc).2⟩
  · exact fun i hi => ext.allocates.writable (h.outer i hi)
  · refine List.forall_mem_append.mpr ⟨fun i hi => ?_, List.forall_mem_singleton.mpr ?_⟩
    · obtain ⟨writable, varying⟩ := h.inner i (inner ▸ hi)
      exact ⟨ext.allocates.writable writable, List.mem_cons_of_mem _ varying⟩
    · exact ⟨h.writable_next rfl rfl, List.mem_cons_self⟩
  · exact h.outer_grounded
  · refine Grounded.append (inner ▸ h.inner_grounded) ⟨fun r hr => ?_, trivial⟩
    rw [← inner]
    exact operands r hr
  · exact fun c hc => ext.available (h.computed c hc)

theorem Founded.pushOuter (h : Founded first assignable past s) {o : Operation}
    (operands : ∀ r ∈ o.operands, s.Outside first past r) :
    Founded first assignable past
      { s with next := s.next + 1, pending := s.pending ++ [⟨s.next, o⟩] } := by
  have ext := Extends.pushOuter s o
  refine ⟨Nat.le_succ_of_le h.first_le, h.closed, ?_, ?_, ?_, ?_, ?_, ?_⟩
  · exact fun c hc => ⟨(h.constants c hc).1, Nat.lt_succ_of_lt (h.constants c hc).2⟩
  · rw [← List.append_assoc]
    refine List.forall_mem_append.mpr ⟨fun i hi => ?_, List.forall_mem_singleton.mpr ?_⟩
    · exact ext.allocates.writable (h.outer i hi)
    · exact h.writable_next rfl rfl
  · exact fun i hi => ⟨ext.allocates.writable (h.inner i hi).1, (h.inner i hi).2⟩
  · rw [← List.append_assoc]
    exact h.outer_grounded.append ⟨operands, trivial⟩
  · exact h.inner_grounded.mono fun _ => ext.outside
  · exact fun c hc => ext.available (h.computed c hc)

/-- An operation on registers that can be read. -/
theorem Founded.push (h : Founded first assignable past s) {o : Operation}
    (operands : ∀ r ∈ o.operands, s.Available first past r) : Founded first assignable past (s.push o).2 := by
  rcases push_cases s o with ⟨body, isOpen, pushed⟩ | ⟨outer, pushed⟩
  · rw [pushed]
    exact h.pushInner isOpen operands
  · have outside : ∀ r ∈ o.operands, s.Outside first past r := by
      intro r hr
      rcases operands r hr with outside | ⟨i, hi, same⟩
      · exact outside
      · have varies : r ∈ s.varying := same ▸ (h.inner i hi).2
        rw [h.closed (outer r hr varies)] at varies
        exact absurd varies List.not_mem_nil
    rw [pushed]
    exact h.pushOuter outside

theorem Founded.constant [Scalar α] (h : Founded first assignable past s) (v : α) :
    Founded first assignable past (s.constant v).2 := by
  unfold Emission.constant
  split
  · exact h
  · exact h.allocate v

theorem Founded.step [Scalar α] (h : Founded first assignable past s) (step : Step first past s s') :
    Founded first assignable past s' := by
  cases step with
  | push o operands => exact h.push operands
  | constant v => exact h.constant v
  | remember e r available => exact h.remember e available

/-- Whatever is emitted by steps is grounded. -/
theorem Founded.steps [Scalar α] (h : Founded first assignable past s) (steps : Steps first past s s') :
    Founded first assignable past s' := by
  induction steps with
  | refl => exact h
  | tail _ step ih => exact ih.step step

end Emission

end AnalogCircuit
