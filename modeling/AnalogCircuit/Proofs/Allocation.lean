import Mathlib.Data.List.Perm.Basic
import AnalogCircuit.Proofs.EmissionSteps
/-!
# Every register is allocated once

No step of emission takes a register twice, so at all times the registers that are in use are those of the constants
and the targets of instructions, each exactly once. This does not depend on what is remembered, nor on which
instructions have been put in front of a loop.
-/

namespace AnalogCircuit

variable {α : Type}

namespace Emission

/-! ## The invariant -/

/-- The instructions that have been emitted; those in `past` have been moved into blocks. -/
def emitted (past : List Instruction) (s : Emission α) : List Instruction := past ++ s.pending ++ s.inner

/-- The registers of constants and the targets of instructions. -/
def taken (past : List Instruction) (s : Emission α) : List Reg :=
  s.constants.map (·.1) ++ (s.emitted past).map (·.target)

/-- The registers from `first` on have been taken one after the other, each for a constant or an instruction. Of the
registers before, those in `stored` have been written, and only by copies. -/
structure Allocated (first : Reg) (stored : List Reg) (past : List Instruction) (s : Emission α) : Prop where
  first_le : first ≤ s.next
  once : (s.taken past).Perm (stored ++ List.range' first (s.next - first))
  copies : ∀ i ∈ s.emitted past, i.target < first → ∃ r, i.operation = .copy r

variable {first : Reg} {stored : List Reg} {past : List Instruction} {s s' : Emission α}

theorem allocated_start (first : Reg) : Allocated first [] [] (start first : Emission α) where
  first_le := Nat.le_refl _
  once := by
    change List.Perm [] (List.range' first (first - first))
    rw [Nat.sub_self]
    exact .nil
  copies _ h := absurd h List.not_mem_nil

/-- One more register has been taken. -/
theorem Allocated.next (h : Allocated first stored past s) (next : s'.next = s.next + 1)
    (once : (s'.taken past).Perm (s.next :: s.taken past))
    (emitted : ∀ i ∈ s'.emitted past, i ∈ s.emitted past ∨ i.target = s.next) :
    Allocated first stored past s' where
  first_le := next ▸ Nat.le_succ_of_le h.first_le
  once := by
    have length : s'.next - first = s.next - first + 1 := by rw [next, Nat.succ_sub h.first_le]
    have last : first + (s.next - first) = s.next := Nat.add_sub_cancel' h.first_le
    rw [length, List.range'_1_concat, last, ← List.append_assoc]
    exact (once.trans (h.once.cons _)).trans (List.perm_append_singleton _ _).symm
  copies i hi low := by
    rcases emitted i hi with old | new
    · exact h.copies i old low
    · exact absurd h.first_le (Nat.not_le_of_lt (new ▸ low))

theorem Allocated.push (h : Allocated first stored past s) (o : Operation) :
    Allocated first stored past (s.push o).2 := by
  have one {s' : Emission α} {i : Instruction} (target : i.target = s.next) (next : s'.next = s.next + 1)
      (constants : s'.constants = s.constants) (added : (s'.emitted past).Perm (i :: s.emitted past)) :
      Allocated first stored past s' := by
    refine h.next next ?_ fun j hj => (List.mem_cons.mp (added.mem_iff.mp hj)).symm.imp_right ?_
    · unfold taken
      rw [constants]
      refine ((added.map (·.target)).append_left _).trans ?_
      rw [List.map_cons, target]
      exact List.perm_middle
    · rintro rfl
      exact target
  -- what does not vary in an open loop is put in front of it, so that each place has to be looked at
  rcases push_cases s o with ⟨body, isOpen, pushed⟩ | ⟨-, pushed⟩
  · have inner : s.inner = body := by rw [Emission.inner, isOpen]; rfl
    rw [pushed]
    refine one (i := ⟨s.next, o⟩) rfl rfl rfl ?_
    change List.Perm (past ++ s.pending ++ (body ++ [_])) _
    rw [← List.append_assoc, ← inner]
    exact List.perm_append_singleton _ _
  · rw [pushed]
    refine one (i := ⟨s.next, o⟩) rfl rfl rfl ?_
    change List.Perm (past ++ (s.pending ++ [_]) ++ s.inner) _
    rw [← List.append_assoc]
    exact (List.perm_append_singleton _ _).append_right _

/-! ## Loops, blocks and assignments -/

/-- Registers stay taken when their instructions are moved. -/
theorem Allocated.move (h : Allocated first stored past s) {past' : List Instruction} (next : s'.next = s.next)
    (constants : s'.constants = s.constants) (moved : (s'.emitted past').Perm (s.emitted past)) :
    Allocated first stored past' s' where
  first_le := next ▸ h.first_le
  once := by
    unfold taken
    rw [next, constants]
    exact ((moved.map (·.target)).append_left _).trans h.once
  copies i hi := h.copies i (moved.mem_iff.mp hi)

theorem Allocated.openLoop (h : Allocated first stored past s) (closed : s.body? = none) (varying : List Reg) :
    Allocated first stored past (s.openLoop varying) := by
  refine h.move rfl rfl ?_
  have inner : (s.openLoop varying).inner = s.inner := by
    unfold inner
    rw [closed]
    rfl
  unfold emitted
  rw [inner]
  exact .refl _

/-- The body of a loop that is closed, and what is moved into a block, belong to the past. -/
theorem Allocated.closeLoop (h : Allocated first stored past s) :
    Allocated first stored (past ++ s.pending ++ s.inner) s.closeLoop.2.flush.2 := by
  refine h.move rfl rfl ?_
  unfold emitted
  rw [show s.closeLoop.2.flush.2.pending = [] from rfl, show s.closeLoop.2.flush.2.inner = [] from rfl,
    List.append_nil, List.append_nil]

/-- A copy writes its target and takes no register. -/
theorem Allocated.copy (h : Allocated first stored past s) (target source : Reg) :
    Allocated first stored past (s.copy target source) ∨
      Allocated first (stored ++ [target]) past (s.copy target source) := by
  unfold Emission.copy
  split
  · exact .inl h
  let copy : Instruction := ⟨target, .copy source⟩
  have added : (s.emitted past ++ [copy]).Perm (emitted past { s with pending := s.pending ++ [copy] }) := by
    change List.Perm _ (past ++ (s.pending ++ [copy]) ++ s.inner)
    rw [emitted, ← List.append_assoc, List.append_assoc, List.append_assoc (past ++ s.pending)]
    exact List.perm_append_comm.append_left _
  refine .inr ⟨h.first_le, ?_, fun i hi low => ?_⟩
  · refine ((added.symm.map (·.target)).append_left (s.constants.map (·.1))).trans ?_
    rw [List.map_append, ← List.append_assoc, List.append_assoc stored]
    refine (h.once.append_right [target]).trans ?_
    rw [List.append_assoc]
    exact List.perm_append_comm.append_left _
  · rcases List.mem_append.mp (added.mem_iff.mpr hi) with hi | hi
    · exact h.copies i hi low
    · rw [List.mem_singleton.mp hi]
      exact ⟨source, rfl⟩

/-! ## Single steps -/

variable [Scalar α]

theorem Allocated.constant (h : Allocated first stored past s) (v : α) :
    Allocated first stored past (s.constant v).2 := by
  unfold Emission.constant
  split
  · exact h
  · refine h.next rfl ?_ fun i hi => .inl hi
    change List.Perm ((s.constants ++ [(s.next, v)]).map (·.1) ++ _) _
    rw [List.map_append]
    exact (List.perm_append_singleton _ _).append_right _

variable {known : Reg} {before : List Instruction}

/-- A step takes at most one register, and takes it once. -/
theorem Allocated.step (h : Allocated first stored past s) (step : Step known before s s') :
    Allocated first stored past s' := by
  cases step with
  | push o => exact h.push o
  | constant v => exact h.constant v
  | remember e r => exact ⟨h.first_le, h.once, h.copies⟩

theorem Allocated.steps (h : Allocated first stored past s) (steps : Steps known before s s') :
    Allocated first stored past s' := by
  induction steps with
  | refl => exact h
  | tail _ step ih => exact ih.step step

end Emission

end AnalogCircuit
