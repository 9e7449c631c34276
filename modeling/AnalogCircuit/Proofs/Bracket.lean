import AnalogCircuit.Proofs.Blocks
/-!
# Code inside and behind a loop

Expressions are emitted while a loop is open and after it has been closed. The registers that were returned inside
hold the values of their expressions after every pass, however the iterated registers change between the passes,
and those that were returned behind the loop hold them after the code behind it. So no value is put in front of
the loop that changes in it, and none is used behind it that has become stale.
-/

namespace AnalogCircuit

variable {α : Type}

/-- What has been emitted for a loop and the code behind it. -/
structure Bracketed where
  /-- The instructions in front of the loop. -/
  hoisted : List Instruction
  body : List Instruction
  /-- The instructions behind the loop. -/
  later : List Instruction
  /-- The registers of the expressions inside. -/
  inside : List Reg
  /-- The registers of the expressions behind. -/
  behind : List Reg

/-- Emits expressions inside a loop over some registers, and others behind it. -/
def Emit.bracket [Scalar α] (registerOf : Symbol → Option Reg) (iterated : List Reg)
    (inside behind : List (Expr α)) : Emit α Bracketed := do
  modify (·.openLoop iterated)
  let inside ← inside.mapM (Emit.expr registerOf)
  let body ← modifyGet Emission.closeLoop
  let hoisted ← Program.flush
  let behind ← behind.mapM (Emit.expr registerOf)
  let later ← Program.flush
  return {
    hoisted := hoisted.flatMap Block.instructions
    body
    later := later.flatMap Block.instructions
    inside
    behind }

/-- What registers may become while a loop runs: passes execute the body, and between them the iterated registers
change in any way. -/
inductive Looped [Scalar α] (body : List Instruction) (iterated : List Reg) (rs : Registers α) :
    Registers α → Prop where
  | start : Looped body iterated rs rs
  | pass {rs' : Registers α} (h : Looped body iterated rs rs') :
      Looped body iterated rs (executeAll body rs')
  | change {rs' rs'' : Registers α} (h : Looped body iterated rs rs') (size : rs''.size = rs'.size)
      (same : ∀ r, r ∉ iterated → rs''.value r = rs'.value r) : Looped body iterated rs rs''

/-- The registers hold the values of the expressions. -/
def Registers.Hold [Scalar α] (registerOf : Symbol → Option Reg) (rs : Registers α)
    (es : List (Expr α)) (regs : List Reg) : Prop :=
  List.Forall₂ (fun e r => e.evaluate (contents registerOf rs.value) = some (rs.value r)) es regs

/-- Writing iterated registers one after the other is a change between passes. -/
theorem Looped.foldl_write [Scalar α] {body : List Instruction} {iterated : List Reg}
    {rs rs' : Registers α} {β : Type} (register : β → Reg) (content : Registers α → β → α) (bs : List β)
    (h : Looped body iterated rs rs') (inside : ∀ b ∈ bs, register b ∈ iterated) :
    Looped body iterated rs
      (bs.foldl (fun rs b => rs.write (register b) (content rs b)) rs') := by
  induction bs generalizing rs' with
  | nil => exact h
  | cons b bs ih =>
    obtain ⟨hb, hbs⟩ := List.forall_mem_cons.mp inside
    refine ih (h.change (Registers.size_write ..) fun r hr => ?_) hbs
    exact Registers.value_write_of_ne (fun same => hr (same.subst (motive := (· ∈ iterated)) hb)) _

/-- The iteration of a loop consists of passes and changes of the iterated unknowns. -/
theorem Loop.looped_iterate [Scalar α] (l : Loop) (tolerance : α) (budget : Nat) {rs rs' : Registers α}
    (h : Looped l.body (l.unknowns.map (·.1)) rs rs') :
    Looped l.body (l.unknowns.map (·.1)) rs (l.iterate tolerance budget rs') := by
  induction budget generalizing rs' with
  | zero => exact h
  | succ budget ih =>
    rw [Loop.iterate]
    dsimp only
    split
    · exact h.pass
    next corrections _ =>
    have corrected : Looped l.body (l.unknowns.map (·.1)) rs
        (l.correct corrections (executeAll l.body rs')) := by
      refine h.pass.foldl_write (fun b : (Reg × Reg) × α => b.1.1) (fun rs b => rs.value b.1.1 - b.2) _
        fun b hb => ?_
      exact List.mem_map_of_mem (List.of_mem_zip hb).1
    split
    · exact corrected
    · exact ih corrected

/-- So does a whole loop, which begins with the previous values. -/
theorem Loop.looped_execute [Scalar α] (l : Loop) (tolerance : α) (budget : Nat) (rs : Registers α) :
    Looped l.body (l.unknowns.map (·.1)) rs ((Block.newton l).execute tolerance budget rs) := by
  refine l.looped_iterate tolerance budget ?_
  exact Looped.start.foldl_write (fun b : Reg × Reg => b.1) (fun rs b => rs.value b.2) _
    fun b hb => List.mem_map_of_mem hb

theorem size_looped [Scalar α] {body : List Instruction} {iterated : List Reg} {rs rs' : Registers α}
    (h : Looped body iterated rs rs') : rs'.size = rs.size := by
  induction h with
  | start => rfl
  | pass _ ih => exact (size_executeAll ..).trans ih
  | change _ size _ ih => exact size.trans ih

/-- A register that is neither a target of the body nor iterated keeps its value. -/
theorem value_looped [Scalar α] {body : List Instruction} {iterated : List Reg} {rs rs' : Registers α}
    (h : Looped body iterated rs rs') {r : Reg} (targets : ∀ i ∈ body, i.target ≠ r)
    (fixed : r ∉ iterated) : rs'.value r = rs.value r := by
  induction h with
  | start => rfl
  | pass _ ih => exact (value_executeAll_of_ne targets _).trans ih
  | change _ _ same ih => exact (same r fixed).trans ih

namespace Emission

variable [ExactScalar α] {registerOf : Symbol → Option Reg} {first : Reg} {readable : Reg → Prop}
  {past : List Instruction} {s : Emission α}

/-- The state while the loop is open, and what the body leaves alone stays obeyed while the loop runs. -/
theorem Sound.obeyed_looped (h : Sound registerOf first readable past s) {iterated : List Reg}
    (varying : ∀ r ∈ iterated, r ∈ s.varying) {rs rs' : Registers α} (size : s.next ≤ rs.size)
    (obeyed : Obeyed past s False rs.value) (run : Looped s.inner iterated rs rs') :
    s.next ≤ rs'.size ∧ Obeyed past s False rs'.value := by
  induction run with
  | start => exact ⟨size, obeyed⟩
  | pass _ ih => exact ⟨ih.1.trans (size_executeAll ..).ge, h.obeyed_pass ih.1 ih.2⟩
  | change _ same_size same ih =>
    refine ⟨ih.1.trans same_size.ge, h.obeyed_of_agree ih.2 fun r hr => ?_⟩
    exact same r fun hi => hr (varying r hi)

end Emission

namespace Emit

open Expr Emission

variable [ExactScalar α] {registerOf : Symbol → Option Reg} {first : Reg} {readable : Reg → Prop}
  {past : List Instruction}

/-- Registers that carry the values of expressions hold them where what was emitted is obeyed. -/
theorem ProvidesAll.hold {s s' : Emission α} {es : List (Expr α)} {regs : List Reg}
    (h : ProvidesAll registerOf first readable past s es regs s')
    (emittable : ∀ e ∈ es, e.isEmittable (bound registerOf) = true) {rs : Registers α}
    (obeyed : ∀ r, Obeyed past s' (r ∈ s'.varying) rs.value) : rs.Hold registerOf es regs := by
  have carries := h.carries
  clear h
  induction carries with
  | nil => exact .nil
  | cons hr _ ih =>
    obtain ⟨he, hes⟩ := List.forall_mem_cons.mp emittable
    refine .cons ?_ (ih hes)
    rw [(hasValue he rs.value).evaluate_eq]
    exact congrArg some (hr.2 rs.value (obeyed _))

/-- The states in which a bracket is emitted: `s₁` when the loop is closed, `s₂` at the end. -/
structure Brackets (registerOf : Symbol → Option Reg) (first : Reg) (iterated : List Reg)
    (inside behind : List (Expr α)) (b : Bracketed) (s₁ s₂ s : Emission α) : Prop where
  inside : ProvidesAll registerOf first (fun _ => True) [] ((start first).openLoop iterated) inside
    b.inside s₁
  behind : ProvidesAll registerOf first (fun _ => True) s₁.pending s₁.closeLoop.2.flush.2 behind
    b.behind s₂
  hoisted : b.hoisted = s₁.pending
  body : b.body = s₁.inner
  later : b.later = s₂.pending
  done : s = s₂.flush.2

variable {iterated : List Reg} {inside behind : List (Expr α)}

theorem bracket_yields (fixed : ∀ x r, registerOf x = some r → r < first)
    (symbols : ∀ r ∈ iterated, ∃ x, registerOf x = some r)
    (powers : ∀ e ∈ inside ++ behind, hasIntegralPowers e = true) :
    Yields (bracket registerOf iterated inside behind) (start first)
      (∀ e ∈ inside ++ behind, e.isEmittable (bound registerOf) = true) fun b s =>
      ∃ s₁ s₂, Brackets registerOf first iterated inside behind b s₁ s₂ s := by
  have admissible (e : Expr α) (he : e ∈ inside ++ behind) :
      Admissible registerOf first (fun _ => True) e :=
    ⟨powers e he, fun x _ r hr => ⟨fixed x r hr, trivial⟩⟩
  have opened : Sound registerOf first (fun _ => True) []
      ((start first : Emission α).openLoop iterated) := by
    refine sound_openLoop fun r hr => ?_
    obtain ⟨x, hx⟩ := symbols r hr
    exact fixed x r hx
  have step₁ := mapM_yields (fun e he => admissible e (List.mem_append_left _ he)) opened
  rw [List.forall_mem_append]
  -- opening the loop, closing it and moving instructions into blocks cannot fail
  show Yields ((inside.mapM (expr registerOf) : Emit α _) >>= fun regs => do
    let body ← modifyGet Emission.closeLoop
    let hoisted ← Program.flush
    let regs' ← behind.mapM (expr registerOf)
    let later ← Program.flush
    return Bracketed.mk (hoisted.flatMap Block.instructions) body
      (later.flatMap Block.instructions) regs regs') ((start first).openLoop iterated) _ _
  refine step₁.bind fun regs s₁ _ h₁ => ?_
  have closed := h₁.sound.closeLoop.flush
  have step₂ := mapM_yields (fun e he => admissible e (List.mem_append_right _ he)) closed
  show Yields ((behind.mapM (expr registerOf) : Emit α _) >>= fun regs' => do
    let later ← Program.flush
    return Bracketed.mk (s₁.closeLoop.2.flush.1.flatMap Block.instructions) s₁.closeLoop.1
      (later.flatMap Block.instructions) regs regs') s₁.closeLoop.2.flush.2 _ _
  refine Yields.mono (step₂.bind (q := True) fun regs' s₂ _ h₂ => ?_) (and_true _).to_iff
    fun _ _ _ h => h
  refine ⟨trivial, s₁, s₂, h₁, h₂, ?_, rfl, ?_, rfl⟩
  · exact flatMap_instructions_flush s₁.closeLoop.2
  · exact flatMap_instructions_flush s₂

/-- Code generation with sharing and hoisting keeps the meaning of expressions. It succeeds exactly for expressions
without unknown functions and operators of time whose calls have the right number of arguments and whose symbols
have registers; then, after every pass of the loop, the registers of the expressions inside hold their values, and
after the code behind the loop those of the expressions behind it. -/
theorem bracket_hold (fixed : ∀ x r, registerOf x = some r → r < first)
    (symbols : ∀ r ∈ iterated, ∃ x, registerOf x = some r)
    (powers : ∀ e ∈ inside ++ behind, hasIntegralPowers e = true) :
    ((∃ b s, bracket registerOf iterated inside behind (start first) = .ok (b, s)) ↔
      ∀ e ∈ inside ++ behind, e.isEmittable (bound registerOf) = true) ∧
    ∀ b s, bracket registerOf iterated inside behind (start first) = .ok (b, s) →
      ∀ rs : Registers α, s.next ≤ rs.size → (∀ c ∈ s.constants, rs.value c.1 = c.2) →
      ∀ rs', Looped b.body iterated (executeAll b.hoisted rs) rs' →
        (executeAll b.body rs').Hold registerOf inside b.inside ∧
        (executeAll b.later rs').Hold registerOf behind b.behind := by
  have yields := bracket_yields fixed symbols powers
  refine ⟨⟨?_, fun emittable => ?_⟩, ?_⟩
  · rintro ⟨b, s, h⟩
    exact (yields.of_ok h).1
  · obtain ⟨b, s, h, -⟩ := yields.exists_ok emittable
    exact ⟨b, s, h⟩
  intro b s h rs size constants rs' run
  obtain ⟨emittable, s₁, s₂, h⟩ := yields.of_ok h
  obtain ⟨inside_ok, behind_ok⟩ := List.forall_mem_append.mp emittable
  rw [h.done] at size constants
  have ext := h.behind.extends_
  have size₁ : s₁.next ≤ rs.size := ext.next.trans size
  have varying (r : Reg) (hr : r ∈ iterated) : r ∈ s₁.varying := by
    obtain ⟨x, hx⟩ := symbols r hr
    exact (h.inside.extends_.varying r (fixed x r hx)).mpr hr
  have front : Obeyed [] s₁ False (executeAll b.hoisted rs).value := by
    rw [h.hoisted]
    exact h.inside.sound.obeyed_executeAll size₁ (fun c hc => constants c (ext.constants c hc))
      fun i hi => absurd hi List.not_mem_nil
  rw [h.body] at run ⊢
  obtain ⟨size', obeyed⟩ := h.inside.sound.obeyed_looped varying
    (size₁.trans (size_executeAll ..).ge) front run
  refine ⟨h.inside.hold inside_ok fun r => h.inside.sound.obeyed_pass size' obeyed, ?_⟩
  rw [h.later]
  refine h.behind.hold behind_ok fun r => ?_
  have nothing : s₂.varying = [] := h.behind.sound.closed (closed_of_loop ext.loop rfl)
  have done : Obeyed s₁.pending s₂ False (executeAll s₂.pending rs').value :=
    h.behind.sound.obeyed_executeAll ?_ (fun c hc => ?_) fun i hi => obeyed.outer i hi
  · exact ⟨done.constants, done.outer, fun hv => by rw [nothing] at hv; cases hv⟩
  · exact size.trans ((size_looped run).trans (size_executeAll ..)).ge
  · -- a constant is in a register that neither the body nor the instructions in front of it write
    obtain ⟨le, -, -, targets⟩ := h.behind.sound.constants c hc
    have outside : c.1 ∉ s₁.varying := by
      rcases ext.allocated c hc with hc | hc
      · exact (h.inside.sound.constants c hc).2.2.1
      · exact fun hv => Nat.not_lt_of_le hc (h.inside.sound.varying_lt _ hv)
    rw [value_looped run (fun i hi same => outside (same.subst (motive := (· ∈ s₁.varying))
        (h.inside.sound.inner i hi).2.1)) fun hi => outside (varying _ hi),
      h.hoisted, value_executeAll_of_ne fun i hi => targets i (List.mem_append_left _ hi)]
    exact constants c hc

/-- Some registers for the symbols `x`, `y` and `p`. -/
def threeRegisters (s : Symbol) : Option Reg :=
  [(Symbol.named "x", 0), (.named "y", 1), (.named "p", 2)].lookup s

/-- A polynomial in `x`, with a quotient that can be computed in front of a loop over `x`. -/
def quadratic : List (Expr ℚ) :=
  let x := Expr.named "x"
  let shared := Expr.named "y" / Expr.named "p"
  [.mkPow x (.mkNum 2) - shared, shared * x]

theorem bracket_hold_quadratic :
    let started : Registers ℚ → Emission ℚ → Registers ℚ := fun rs s => rs.writeAll s.constants
    ∃ b s, bracket threeRegisters [0] quadratic quadratic (start 3) = .ok (b, s) ∧
      let rs := started (#[2, 3, 5] ++ Array.replicate 20 0) s
      s.next ≤ rs.size ∧ (∀ c ∈ s.constants, rs.value c.1 = c.2) ∧
      let rs' := (executeAll b.body (executeAll b.hoisted rs)).write 0 7
      (executeAll b.body rs').Hold threeRegisters quadratic b.inside ∧
        (executeAll b.later rs').Hold threeRegisters quadratic b.behind := by
  intro started
  have fixed : ∀ x r, threeRegisters x = some r → r < 3 := by
    intro x r h
    obtain ⟨before, after, all, -⟩ := List.lookup_eq_some_iff.mp h
    have entry : (x, r) ∈ before ++ (x, r) :: after :=
      List.mem_append_right _ List.mem_cons_self
    rw [← all] at entry
    have small : ∀ e ∈ [(Symbol.named "x", 0), (.named "y", 1), (.named "p", 2)], e.2 < 3 := by
      decide
    exact small _ entry
  have symbols : ∀ r ∈ [0], ∃ x, threeRegisters x = some r := by
    intro r hr
    rw [List.mem_singleton.mp hr]
    exact ⟨.named "x", by decide⟩
  have powers : ∀ e ∈ quadratic ++ quadratic, hasIntegralPowers e = true := by decide +kernel
  obtain ⟨emitted, hold⟩ := bracket_hold fixed symbols powers
  obtain ⟨b, s, h⟩ := emitted.mpr (by decide +kernel)
  have ready : (match bracket threeRegisters [0] quadratic quadratic (start 3) with
      | .ok (_, s) => decide (s.next ≤ (started (#[2, 3, 5] ++ Array.replicate 20 0) s).size) &&
          decide (∀ c ∈ s.constants,
            (started (#[2, 3, 5] ++ Array.replicate 20 0) s).value c.1 = c.2)
      | .error _ => false) = true := by decide +kernel
  rw [h] at ready
  obtain ⟨size, constants⟩ := Bool.and_eq_true_iff.mp ready
  refine ⟨b, s, h, of_decide_eq_true size, of_decide_eq_true constants, ?_⟩
  refine hold b s h _ (of_decide_eq_true size) (of_decide_eq_true constants) _ ?_
  refine Looped.change (Looped.pass Looped.start) (Registers.size_write ..) fun r hr => ?_
  exact Registers.value_write_of_ne (fun same => hr (List.mem_singleton.mpr same.symm)) 7

end Emit

end AnalogCircuit
