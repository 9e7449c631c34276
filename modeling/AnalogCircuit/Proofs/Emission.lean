import AnalogCircuit.Proofs.Emittable
import AnalogCircuit.Proofs.Execution
/-!
# Emission of instructions is sound

Emitted instructions are read as equations between registers. What is remembered about an expression is that its
register has its value in all registers that obey the equations: those of constants, those of instructions
outside of the loop and, for registers that change in the loop, those of its body. More instructions only add
equations, so nothing that is remembered has to be checked again.

Apart from that the instructions are kept orderly, so that executing them makes their equations true, and those
outside of the loop read nothing that changes in it, so that they stay true from pass to pass.
-/

namespace AnalogCircuit

variable {α : Type}

/-- The values of symbols by their registers. -/
def contents (registerOf : Symbol → Option Reg) (ρ : Reg → α) (s : Symbol) : Option α :=
  (registerOf s).map ρ

namespace Emission

/-! ## Equations -/

/-- The body of the open loop, so far. -/
def inner (s : Emission α) : List Instruction := s.body?.getD []

/-- The registers hold the constants, obey the instructions outside of the loop, and obey its body where that
matters. The instructions in `past` have been moved into blocks. -/
structure Obeyed [Scalar α] (past : List Instruction) (s : Emission α) (looped : Prop) (ρ : Reg → α) :
    Prop where
  constants : ∀ c ∈ s.constants, ρ c.1 = c.2
  outer : ∀ i ∈ past ++ s.pending, i.Holds ρ
  inner : looped → ∀ i ∈ s.inner, i.Holds ρ

/-- The register is in use: fixed and readable, or allocated. -/
def InUse (first : Reg) (readable : Reg → Prop) (s : Emission α) (r : Reg) : Prop :=
  r < s.next ∧ (first ≤ r ∨ readable r)

/-- The register has the value `f` of all registers. -/
def Carries [Scalar α] (past : List Instruction) (s : Emission α) (r : Reg) (f : (Reg → α) → α) : Prop :=
  ∀ ρ, Obeyed past s (r ∈ s.varying) ρ → f ρ = ρ r

/-! ## The invariant -/

/-- What is known about a state: the registers up to `first` are fixed, and of these the readable ones may be
operands. -/
structure Sound [Scalar α] (registerOf : Symbol → Option Reg) (first : Reg) (readable : Reg → Prop)
    (past : List Instruction) (s : Emission α) : Prop where
  first_le : first ≤ s.next
  closed : s.body? = none → s.varying = []
  varying_lt : ∀ r ∈ s.varying, r < s.next
  constants : ∀ c ∈ s.constants, first ≤ c.1 ∧ c.1 < s.next ∧ c.1 ∉ s.varying ∧
    ∀ i ∈ past ++ s.pending, i.target ≠ c.1
  outer : ∀ i ∈ past ++ s.pending, s.InUse first readable i.target ∧ i.target ∉ s.varying ∧
    ∀ r ∈ i.operation.operands, s.InUse first readable r ∧ r ∉ s.varying
  inner : ∀ i ∈ s.inner, first ≤ i.target ∧ i.target ∈ s.varying ∧
    ∀ r ∈ i.operation.operands, s.InUse first readable r
  outer_orderly : Orderly (past ++ s.pending)
  inner_orderly : Orderly s.inner
  computed : ∀ c ∈ s.computed, s.InUse first readable c.2 ∧
    c.1.isEmittable (fun x => (registerOf x).isSome) = true ∧
    s.Carries past c.2 fun ρ => c.1.value (contents registerOf ρ)

/-- Where no loop is opened and none was open, none is open. -/
theorem closed_of_loop {s s' : Emission α} (loop : s'.body?.isSome = s.body?.isSome) (closed : s.body? = none) :
    s'.body? = none := by
  rw [← Option.not_isSome_iff_eq_none, loop, closed]
  exact Bool.false_ne_true

/-- The second state has come from the first by emission. -/
structure Extends (s s' : Emission α) : Prop where
  next : s.next ≤ s'.next
  constants : ∀ c ∈ s.constants, c ∈ s'.constants
  allocated : ∀ c ∈ s'.constants, c ∈ s.constants ∨ s.next ≤ c.1
  pending : ∀ i ∈ s.pending, i ∈ s'.pending
  written : ∀ i ∈ s'.pending, i ∈ s.pending ∨ s.next ≤ i.target
  inner : ∀ i ∈ s.inner, i ∈ s'.inner
  varying : ∀ r < s.next, r ∈ s'.varying ↔ r ∈ s.varying
  loop : s'.body?.isSome = s.body?.isSome

namespace Extends

theorem refl (s : Emission α) : Extends s s :=
  ⟨Nat.le_refl _, fun _ h => h, fun _ h => .inl h, fun _ h => h, fun _ h => .inl h, fun _ h => h,
    fun _ _ => Iff.rfl, rfl⟩

theorem trans {s s' s'' : Emission α} (h : Extends s s') (h' : Extends s' s'') : Extends s s'' where
  next := Nat.le_trans h.next h'.next
  constants c hc := h'.constants c (h.constants c hc)
  allocated c hc := by
    rcases h'.allocated c hc with hc | hc
    · exact h.allocated c hc
    · exact .inr (h.next.trans hc)
  pending i hi := h'.pending i (h.pending i hi)
  written i hi := by
    rcases h'.written i hi with hi | hi
    · exact h.written i hi
    · exact .inr (h.next.trans hi)
  inner i hi := h'.inner i (h.inner i hi)
  varying r hr := (h'.varying r (Nat.lt_of_lt_of_le hr h.next)).trans (h.varying r hr)
  loop := h'.loop.trans h.loop

theorem remember (s : Emission α) (e : Expr α) (r : Reg) : Extends s (s.remember e r) :=
  ⟨Nat.le_refl _, fun _ h => h, fun _ h => .inl h, fun _ h => h, fun _ h => .inl h, fun _ h => h,
    fun _ _ => Iff.rfl, rfl⟩

theorem allocate (s : Emission α) (v : α) :
    Extends s { s with next := s.next + 1, constants := s.constants ++ [(s.next, v)] } :=
  ⟨Nat.le_succ _, fun _ h => List.mem_append_left _ h,
    fun c hc => (List.mem_append.mp hc).imp_right fun hc => by rw [List.mem_singleton.mp hc],
    fun _ h => h, fun _ h => .inl h, fun _ h => h, fun _ _ => Iff.rfl, rfl⟩

theorem pushInner {s : Emission α} {body : List Instruction} (isOpen : s.body? = some body)
    (o : Operation) :
    Extends s { s with next := s.next + 1, varying := s.next :: s.varying,
                       body? := some (body ++ [⟨s.next, o⟩]) } := by
  refine ⟨Nat.le_succ _, fun _ h => h, fun _ h => .inl h, fun _ h => h, fun _ h => .inl h,
    fun i hi => ?_, fun r hr => ?_, ?_⟩
  · rw [Emission.inner, isOpen] at hi
    exact List.mem_append_left _ hi
  · rw [List.mem_cons, or_iff_right (Nat.ne_of_lt hr)]
  · rw [isOpen]; rfl

theorem pushOuter (s : Emission α) (o : Operation) :
    Extends s { s with next := s.next + 1, pending := s.pending ++ [⟨s.next, o⟩] } :=
  ⟨Nat.le_succ _, fun _ h => h, fun _ h => .inl h, fun _ h => List.mem_append_left _ h,
    fun i hi => (List.mem_append.mp hi).imp_right fun hi => by rw [List.mem_singleton.mp hi],
    fun _ h => h, fun _ _ => Iff.rfl, rfl⟩

variable {first : Reg} {readable : Reg → Prop} {s s' : Emission α}

theorem inUse (h : Extends s s') {r : Reg} (hr : s.InUse first readable r) :
    s'.InUse first readable r := ⟨Nat.lt_of_lt_of_le hr.1 h.next, hr.2⟩

variable [Scalar α] {past : List Instruction} {ρ : Reg → α} {looped looped' : Prop}

/-- Registers that obey more equations obey fewer. -/
theorem obeyed (h : Extends s s') (obeyed : Obeyed past s' looped' ρ) (le : looped → looped') :
    Obeyed past s looped ρ where
  constants c hc := obeyed.constants c (h.constants c hc)
  outer i hi := by
    rcases List.mem_append.mp hi with hi | hi
    · exact obeyed.outer i (List.mem_append_left _ hi)
    · exact obeyed.outer i (List.mem_append_right _ (h.pending i hi))
  inner l i hi := obeyed.inner (le l) i (h.inner i hi)

/-- Registers keep what they carry. -/
theorem carries (h : Extends s s') {r : Reg} {f : (Reg → α) → α} (hr : r < s.next)
    (carries : s.Carries past r f) : s'.Carries past r f :=
  fun ρ obeyed => carries ρ (h.obeyed obeyed (h.varying r hr).mpr)

end Extends

section

variable [Scalar α] {registerOf : Symbol → Option Reg} {first : Reg} {readable : Reg → Prop}
  {past : List Instruction} {s s' : Emission α}

theorem sound_start : Sound registerOf first readable [] (start first : Emission α) where
  first_le := Nat.le_refl _
  closed _ := rfl
  varying_lt _ h := absurd h List.not_mem_nil
  constants _ h := absurd h List.not_mem_nil
  outer _ h := absurd h List.not_mem_nil
  inner _ h := absurd h List.not_mem_nil
  outer_orderly := ⟨by simp [start], by simp [start]⟩
  inner_orderly := ⟨by simp [start, inner], by simp [start, inner]⟩
  computed _ h := absurd h List.not_mem_nil

/-- The state goes on soundly, and a register in use carries a value. -/
structure Computes (registerOf : Symbol → Option Reg) (first : Reg) (readable : Reg → Prop)
    (past : List Instruction) (s s' : Emission α) (r : Reg) (f : (Reg → α) → α) : Prop where
  sound : Sound registerOf first readable past s'
  extends_ : Extends s s'
  inUse : s'.InUse first readable r
  carries : s'.Carries past r f

/-! ## Single steps -/

/-- An expression that is remembered is remembered rightly. -/
theorem Sound.remember (h : Sound registerOf first readable past s) {e : Expr α} {r : Reg}
    (inUse : s.InUse first readable r)
    (emittable : e.isEmittable (fun x => (registerOf x).isSome) = true)
    (carries : s.Carries past r fun ρ => e.value (contents registerOf ρ)) :
    Computes registerOf first readable past s (s.remember e r) r
      fun ρ => e.value (contents registerOf ρ) := by
  have ext := Extends.remember s e r
  have carries := ext.carries inUse.1 carries
  refine ⟨{ h with computed := List.forall_mem_cons.mpr ⟨⟨inUse, emittable, carries⟩, ?_⟩ }, ext,
    inUse, carries⟩
  intro c hc
  obtain ⟨h₁, h₂, h₃⟩ := h.computed c hc
  exact ⟨h₁, h₂, ext.carries h₁.1 h₃⟩

/-- Allocating a register for a constant. -/
theorem Sound.allocate (h : Sound registerOf first readable past s) (v : α) :
    Computes registerOf first readable past s
      { s with next := s.next + 1, constants := s.constants ++ [(s.next, v)] } s.next fun _ => v := by
  have ext := Extends.allocate s v
  refine ⟨?_, ext, ⟨Nat.lt_succ_self _, .inl h.first_le⟩, fun ρ obeyed => ?_⟩
  · refine { h with first_le := ?_, varying_lt := ?_, constants := ?_, outer := ?_, inner := ?_,
                    computed := ?_ }
    · exact Nat.le_succ_of_le h.first_le
    · exact fun r hr => Nat.lt_succ_of_lt (h.varying_lt r hr)
    · intro c hc
      rcases List.mem_append.mp hc with hc | hc
      · obtain ⟨h₁, h₂, h₃⟩ := h.constants c hc
        exact ⟨h₁, Nat.lt_succ_of_lt h₂, h₃⟩
      · rw [List.mem_singleton.mp hc]
        refine ⟨h.first_le, Nat.lt_succ_self _, fun hv => ?_, fun i hi => ?_⟩
        · exact Nat.lt_irrefl _ (h.varying_lt _ hv)
        · exact Nat.ne_of_lt (h.outer i hi).1.1
    · intro i hi
      obtain ⟨h₁, h₂, h₃⟩ := h.outer i hi
      exact ⟨ext.inUse h₁, h₂, fun r hr => ⟨ext.inUse (h₃ r hr).1, (h₃ r hr).2⟩⟩
    · intro i hi
      obtain ⟨h₁, h₂, h₃⟩ := h.inner i hi
      exact ⟨h₁, h₂, fun r hr => ext.inUse (h₃ r hr)⟩
    · intro c hc
      obtain ⟨h₁, h₂, h₃⟩ := h.computed c hc
      exact ⟨ext.inUse h₁, h₂, ext.carries h₁.1 h₃⟩
  · exact (obeyed.constants _ (List.mem_append_right _ (List.mem_singleton.mpr rfl))).symm

/-- A constant is provided in a register that holds it, or in a new one. -/
theorem Sound.constant {α : Type} [ExactScalar α] {past : List Instruction} {s : Emission α}
    (h : Sound registerOf first readable past s) (v : α) :
    Computes registerOf first readable past s (s.constant v).2 (s.constant v).1 fun _ => v := by
  unfold Emission.constant
  split
  · next c found =>
    have hc := List.mem_of_find?_eq_some found
    have same : c.2 = v := by
      have order := List.find?_some found
      exact ExactScalar.order_eq_iff.mp (eq_of_beq order)
    obtain ⟨h₁, h₂, -⟩ := h.constants c hc
    refine ⟨h, Extends.refl s, ⟨h₂, .inl h₁⟩, fun ρ obeyed => ?_⟩
    rw [obeyed.constants c hc, same]
  · exact h.allocate v

/-- An instruction for a new register disturbs no instruction that reads registers in use. -/
theorem undisturbed_of_lt {i j : Instruction} {n : Reg} (target : i.target < n)
    (operands : ∀ r ∈ i.operation.operands, r < n) (hj : j.target = n) : i.Undisturbed j := by
  unfold Instruction.Undisturbed
  rw [hj]
  exact ⟨(Nat.ne_of_lt target).symm, fun hr => Nat.lt_irrefl _ (operands n hr)⟩

/-- An instruction that changes in the loop is put into its body. -/
theorem Sound.pushInner (h : Sound registerOf first readable past s) {body : List Instruction}
    (isOpen : s.body? = some body) {o : Operation}
    (operands : ∀ r ∈ o.operands, s.InUse first readable r) :
    Computes registerOf first readable past s
      { s with next := s.next + 1, varying := s.next :: s.varying,
               body? := some (body ++ [⟨s.next, o⟩]) } s.next o.value := by
  have inner : s.inner = body := by rw [Emission.inner, isOpen]; rfl
  have ext := Extends.pushInner isOpen o
  have fresh {r : Reg} (hr : r < s.next) (hv : r ∉ s.varying) : r ∉ s.next :: s.varying := by
    rw [List.mem_cons, or_iff_right (Nat.ne_of_lt hr)]
    exact hv
  refine ⟨?_, ext, ⟨Nat.lt_succ_self _, .inl h.first_le⟩, fun ρ obeyed => ?_⟩
  · refine { h with first_le := Nat.le_succ_of_le h.first_le, closed := ?_, varying_lt := ?_,
                    constants := ?_, outer := ?_, inner := ?_, inner_orderly := ?_, computed := ?_ }
    · intro hc; cases hc
    · exact List.forall_mem_cons.mpr
        ⟨Nat.lt_succ_self _, fun r hr => Nat.lt_succ_of_lt (h.varying_lt r hr)⟩
    · intro c hc
      obtain ⟨h₁, h₂, h₃, h₄⟩ := h.constants c hc
      exact ⟨h₁, Nat.lt_succ_of_lt h₂, fresh h₂ h₃, h₄⟩
    · intro i hi
      obtain ⟨h₁, h₂, h₃⟩ := h.outer i hi
      exact ⟨ext.inUse h₁, fresh h₁.1 h₂, fun r hr =>
        ⟨ext.inUse (h₃ r hr).1, fresh (h₃ r hr).1.1 (h₃ r hr).2⟩⟩
    · intro i hi
      rcases List.mem_append.mp hi with hi | hi
      · obtain ⟨h₁, h₂, h₃⟩ := h.inner i (by rwa [inner])
        exact ⟨h₁, List.mem_cons_of_mem _ h₂, fun r hr => ext.inUse (h₃ r hr)⟩
      · rw [List.mem_singleton.mp hi]
        exact ⟨h.first_le, List.mem_cons_self, fun r hr => ext.inUse (operands r hr)⟩
    · refine Orderly.append_singleton (inner ▸ h.inner_orderly)
        (fun hr => Nat.lt_irrefl _ (operands _ hr).1) fun j hj => ?_
      obtain ⟨-, h₂, h₃⟩ := h.inner j (by rwa [inner])
      exact undisturbed_of_lt (h.varying_lt _ h₂) (fun r hr => (h₃ r hr).1) rfl
    · intro c hc
      obtain ⟨h₁, h₂, h₃⟩ := h.computed c hc
      exact ⟨ext.inUse h₁, h₂, ext.carries h₁.1 h₃⟩
  · exact (obeyed.inner List.mem_cons_self ⟨s.next, o⟩
      (List.mem_append_right _ (List.mem_singleton.mpr rfl))).symm

/-- An instruction that does not change in the loop is put in front of it. -/
theorem Sound.pushOuter (h : Sound registerOf first readable past s) {o : Operation}
    (operands : ∀ r ∈ o.operands, s.InUse first readable r ∧ r ∉ s.varying) :
    Computes registerOf first readable past s
      { s with next := s.next + 1, pending := s.pending ++ [⟨s.next, o⟩] } s.next o.value := by
  have ext := Extends.pushOuter s o
  have fresh : s.next ∉ s.varying := fun hv => Nat.lt_irrefl _ (h.varying_lt _ hv)
  refine ⟨?_, ext, ⟨Nat.lt_succ_self _, .inl h.first_le⟩, fun ρ obeyed => ?_⟩
  · refine { h with first_le := Nat.le_succ_of_le h.first_le, varying_lt := ?_, constants := ?_,
                    outer := ?_, inner := ?_, outer_orderly := ?_, computed := ?_ }
    · exact fun r hr => Nat.lt_succ_of_lt (h.varying_lt r hr)
    · intro c hc
      obtain ⟨h₁, h₂, h₃, h₄⟩ := h.constants c hc
      refine ⟨h₁, Nat.lt_succ_of_lt h₂, h₃, fun i hi => ?_⟩
      rw [← List.append_assoc] at hi
      rcases List.mem_append.mp hi with hi | hi
      · exact h₄ i hi
      · rw [List.mem_singleton.mp hi]
        exact (Nat.ne_of_lt h₂).symm
    · intro i hi
      rw [← List.append_assoc] at hi
      rcases List.mem_append.mp hi with hi | hi
      · obtain ⟨h₁, h₂, h₃⟩ := h.outer i hi
        exact ⟨ext.inUse h₁, h₂, fun r hr => ⟨ext.inUse (h₃ r hr).1, (h₃ r hr).2⟩⟩
      · rw [List.mem_singleton.mp hi]
        exact ⟨⟨Nat.lt_succ_self _, .inl h.first_le⟩, fresh, fun r hr =>
          ⟨ext.inUse (operands r hr).1, (operands r hr).2⟩⟩
    · intro i hi
      obtain ⟨h₁, h₂, h₃⟩ := h.inner i hi
      exact ⟨h₁, h₂, fun r hr => ext.inUse (h₃ r hr)⟩
    · rw [← List.append_assoc]
      refine Orderly.append_singleton h.outer_orderly
        (fun hr => Nat.lt_irrefl _ (operands _ hr).1.1) fun j hj => ?_
      obtain ⟨h₁, -, h₃⟩ := h.outer j hj
      exact undisturbed_of_lt h₁.1 (fun r hr => (h₃ r hr).1.1) rfl
    · intro c hc
      obtain ⟨h₁, h₂, h₃⟩ := h.computed c hc
      exact ⟨ext.inUse h₁, h₂, ext.carries h₁.1 h₃⟩
  · refine (obeyed.outer ⟨s.next, o⟩ ?_).symm
    exact List.mem_append_right _ (List.mem_append_right _ (List.mem_singleton.mpr rfl))

/-- A pushed operation is computed, and changes in the loop if one of its operands does. -/
theorem Sound.push (h : Sound registerOf first readable past s) {o : Operation}
    (operands : ∀ r ∈ o.operands, s.InUse first readable r) :
    Computes registerOf first readable past s (s.push o).2 (s.push o).1 o.value ∧
      ∀ r ∈ o.operands, r ∈ s.varying → (s.push o).1 ∈ (s.push o).2.varying := by
  rcases push_cases s o with ⟨body, isOpen, pushed⟩ | ⟨outside, pushed⟩
  · rw [pushed]
    exact ⟨h.pushInner isOpen operands, fun _ _ _ => List.mem_cons_self⟩
  · have still : ∀ r ∈ o.operands, r ∉ s.varying := by
      intro r hr varies
      rw [h.closed (outside r hr varies)] at varies
      exact List.not_mem_nil varies
    rw [pushed]
    exact ⟨h.pushOuter fun r hr => ⟨operands r hr, still r hr⟩,
      fun r hr varies => absurd varies (still r hr)⟩

end

end Emission

end AnalogCircuit
