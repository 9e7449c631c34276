import AnalogCircuit.Program.Execution
/-!
# Straight code

In a list of instructions each of which writes a register that no earlier one reads or writes, nothing that has
been computed is disturbed again. When such a list has been executed, every instruction is an equation between
the registers as they then are.
-/

namespace AnalogCircuit

variable {α : Type} [Scalar α]

/-! ## Registers -/

namespace Registers

omit [Scalar α] in
@[simp] theorem size_write (rs : Registers α) (r : Reg) (x : α) : (rs.write r x).size = rs.size :=
  Array.size_setIfInBounds

theorem value_write_self {rs : Registers α} {r : Reg} (h : r < rs.size) (x : α) :
    (rs.write r x).value r = x := by
  unfold value write
  simp [Array.getD, h]

theorem value_write_of_ne {rs : Registers α} {r r' : Reg} (h : r ≠ r') (x : α) :
    (rs.write r x).value r' = rs.value r' := by
  unfold value write
  by_cases hr : r' < rs.size
  · simp [Array.getD, hr, Array.getElem_setIfInBounds_ne hr h]
  · simp [Array.getD, hr]

end Registers

/-! ## Instructions as equations -/

/-- An operation sees only its operands. -/
theorem Operation.value_congr {ρ ρ' : Reg → α} {o : Operation} (h : ∀ r ∈ o.operands, ρ r = ρ' r) :
    o.value ρ = o.value ρ' := by
  cases o <;> simp_all [Operation.value, Operation.operands]

namespace Instruction

/-- The target holds the value of the operation. -/
def Holds (ρ : Reg → α) (i : Instruction) : Prop := ρ i.target = i.operation.value ρ

/-- The later instruction writes neither the target nor an operand of this one. -/
def Undisturbed (i later : Instruction) : Prop :=
  later.target ≠ i.target ∧ later.target ∉ i.operation.operands

theorem holds_congr {ρ ρ' : Reg → α} {i : Instruction} (target : ρ i.target = ρ' i.target)
    (operands : ∀ r ∈ i.operation.operands, ρ r = ρ' r) : i.Holds ρ ↔ i.Holds ρ' := by
  unfold Holds
  rw [target, Operation.value_congr operands]

end Instruction

/-- No instruction reads its own target, and none disturbs an earlier one. -/
def Orderly (is : List Instruction) : Prop :=
  (∀ i ∈ is, i.target ∉ i.operation.operands) ∧ is.Pairwise Instruction.Undisturbed

/-- An instruction that disturbs no other one can be appended. -/
theorem Orderly.append_singleton {is : List Instruction} {i : Instruction} (h : Orderly is)
    (own : i.target ∉ i.operation.operands) (others : ∀ j ∈ is, j.Undisturbed i) :
    Orderly (is ++ [i]) := by
  refine ⟨?_, ?_⟩
  · intro j hj
    rcases List.mem_append.mp hj with hj | hj
    · exact h.1 j hj
    · rw [List.mem_singleton.mp hj]; exact own
  · rw [List.pairwise_append]
    refine ⟨h.2, List.pairwise_singleton _ _, ?_⟩
    intro j hj k hk
    rw [List.mem_singleton.mp hk]
    exact others j hj

/-! ## Execution -/

@[simp] theorem size_executeAll (is : List Instruction) (rs : Registers α) :
    (executeAll is rs).size = rs.size := by
  induction is generalizing rs with
  | nil => rfl
  | cons i is ih => exact (ih _).trans (Registers.size_write ..)

/-- Registers that are no target keep their values. -/
theorem value_executeAll_of_ne {is : List Instruction} {r : Reg} (h : ∀ i ∈ is, i.target ≠ r)
    (rs : Registers α) : (executeAll is rs).value r = rs.value r := by
  induction is generalizing rs with
  | nil => rfl
  | cons i is ih =>
    obtain ⟨hi, his⟩ := List.forall_mem_cons.mp h
    exact (ih his _).trans (Registers.value_write_of_ne hi _)

/-- What holds of registers that are no targets goes on to hold. -/
theorem holds_executeAll_of_undisturbed {is : List Instruction} {i : Instruction}
    (h : ∀ j ∈ is, i.Undisturbed j) {rs : Registers α} (holds : i.Holds rs.value) :
    i.Holds (executeAll is rs).value := by
  refine (Instruction.holds_congr ?_ fun r hr => ?_).mp holds
  · exact (value_executeAll_of_ne (fun j hj => (h j hj).1) rs).symm
  · refine (value_executeAll_of_ne (fun j hj e => ?_) rs).symm
    exact (h j hj).2 (e ▸ hr)

/-- After orderly instructions have been executed, each of them holds. -/
theorem holds_executeAll {is : List Instruction} (h : Orderly is) {rs : Registers α}
    (bound : ∀ i ∈ is, i.target < rs.size) : ∀ i ∈ is, i.Holds (executeAll is rs).value := by
  induction is generalizing rs with
  | nil => exact fun i hi => absurd hi List.not_mem_nil
  | cons j is ih =>
    obtain ⟨own, others⟩ := List.forall_mem_cons.mp h.1
    obtain ⟨first, rest⟩ := List.pairwise_cons.mp h.2
    obtain ⟨hj, his⟩ := List.forall_mem_cons.mp bound
    refine List.forall_mem_cons.mpr ⟨?_, ih ⟨others, rest⟩ fun i hi => ?_⟩
    · refine holds_executeAll_of_undisturbed first ?_
      show (rs.write j.target _).value j.target = _
      rw [Registers.value_write_self hj]
      refine Operation.value_congr fun r hr => (Registers.value_write_of_ne ?_ _).symm
      rintro rfl
      exact own hr
    · exact Nat.lt_of_lt_of_eq (his i hi) (Registers.size_write ..).symm

end AnalogCircuit
