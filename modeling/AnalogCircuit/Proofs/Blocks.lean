import AnalogCircuit.Proofs.Code
import AnalogCircuit.Program.Compilation
/-!
# Loops, blocks and assignments

Opening and closing a loop, moving instructions into a block and copying a value to the register of an unknown
keep emission sound, and executing what was emitted makes its equations true. A pass of the loop makes the
equations of its body true and leaves those outside of it alone, for nothing outside reads or writes what
changes in it.
-/

namespace AnalogCircuit

variable {α : Type}

namespace Emission

section

variable [Scalar α] {registerOf : Symbol → Option Reg} {first : Reg} {readable : Reg → Prop}
  {past : List Instruction} {s s' : Emission α}

/-! ## Loops -/

/-- A loop that is opened first of all. -/
theorem sound_openLoop {regs : List Reg} (fixed : ∀ r ∈ regs, r < first) :
    Sound registerOf first readable [] ((start first : Emission α).openLoop regs) where
  first_le := Nat.le_refl _
  closed h := by cases h
  varying_lt := fixed
  constants _ h := absurd h List.not_mem_nil
  outer _ h := absurd h List.not_mem_nil
  inner _ h := absurd h List.not_mem_nil
  outer_orderly := ⟨fun _ hi => absurd hi List.not_mem_nil, List.Pairwise.nil⟩
  inner_orderly := ⟨fun _ hi => absurd hi List.not_mem_nil, List.Pairwise.nil⟩
  computed _ h := absurd h List.not_mem_nil

/-- When a loop is closed, what changed in it is forgotten, and the rest does not depend on its body. -/
theorem Sound.closeLoop (h : Sound registerOf first readable past s) :
    Sound registerOf first readable past s.closeLoop.2 where
  first_le := h.first_le
  closed _ := rfl
  varying_lt _ hr := absurd hr List.not_mem_nil
  constants c hc := by
    obtain ⟨h₁, h₂, -, h₄⟩ := h.constants c hc
    exact ⟨h₁, h₂, List.not_mem_nil, h₄⟩
  outer i hi := by
    obtain ⟨h₁, -, h₃⟩ := h.outer i hi
    exact ⟨h₁, List.not_mem_nil, fun r hr => ⟨(h₃ r hr).1, List.not_mem_nil⟩⟩
  inner _ hi := absurd hi List.not_mem_nil
  outer_orderly := h.outer_orderly
  inner_orderly := ⟨fun _ hi => absurd hi List.not_mem_nil, List.Pairwise.nil⟩
  computed c hc := by
    obtain ⟨kept, unchanged⟩ := List.mem_filter.mp hc
    obtain ⟨h₁, h₂, h₃⟩ := h.computed c kept
    refine ⟨h₁, h₂, fun ρ obeyed => h₃ ρ ⟨obeyed.constants, obeyed.outer, fun changes => ?_⟩⟩
    rw [Bool.not_eq_true', ← Bool.not_eq_true, List.contains_iff_mem] at unchanged
    exact absurd changes unchanged

/-! ## Blocks -/

omit [Scalar α] in
theorem flatMap_instructions_flush (s : Emission α) :
    s.flush.1.flatMap Block.instructions = s.pending := by
  unfold flush
  dsimp only
  split
  · next h => rw [List.isEmpty_iff.mp h]; rfl
  · exact List.append_nil _

/-- Instructions that are moved into a block have to be obeyed as before. -/
theorem Sound.flush (h : Sound registerOf first readable past s) :
    Sound registerOf first readable (past ++ s.pending) s.flush.2 := by
  have all : past ++ s.pending ++ s.flush.2.pending = past ++ s.pending := List.append_nil _
  have obeyed {looped : Prop} {ρ : Reg → α} (o : Obeyed (past ++ s.pending) s.flush.2 looped ρ) :
      Obeyed past s looped ρ := ⟨o.constants, all ▸ o.outer, o.inner⟩
  refine { h with constants := ?_, outer := ?_, outer_orderly := ?_, computed := ?_ }
  · rw [all]; exact h.constants
  · rw [all]; exact h.outer
  · rw [all]; exact h.outer_orderly
  · intro c hc
    obtain ⟨h₁, h₂, h₃⟩ := h.computed c hc
    exact ⟨h₁, h₂, fun ρ o => h₃ ρ (obeyed o)⟩

/-! ## Assignments -/

/-- The more registers are readable, the less is to be known. -/
theorem Sound.mono {readable' : Reg → Prop} (h : Sound registerOf first readable past s)
    (le : ∀ r, readable r → readable' r) : Sound registerOf first readable' past s := by
  have inUse {r : Reg} (hr : s.InUse first readable r) : s.InUse first readable' r :=
    ⟨hr.1, hr.2.imp_right (le r)⟩
  refine { h with outer := ?_, inner := ?_, computed := ?_ }
  · intro i hi
    obtain ⟨h₁, h₂, h₃⟩ := h.outer i hi
    exact ⟨inUse h₁, h₂, fun r hr => ⟨inUse (h₃ r hr).1, (h₃ r hr).2⟩⟩
  · intro i hi
    obtain ⟨h₁, h₂, h₃⟩ := h.inner i hi
    exact ⟨h₁, h₂, fun r hr => inUse (h₃ r hr)⟩
  · intro c hc
    obtain ⟨h₁, h₂⟩ := h.computed c hc
    exact ⟨inUse h₁, h₂⟩

/-- A fixed register that nothing has read so far takes a value, and may be read from then on. -/
theorem Sound.copy (h : Sound registerOf first readable past s) (closed : s.body? = none)
    {target source : Reg} (fixed : target < first) (unread : ¬readable target)
    (inUse : s.InUse first readable source) :
    s.copy target source = { s with pending := s.pending ++ [⟨target, .copy source⟩] } ∧
      Sound registerOf first (fun r => readable r ∨ r = target) past (s.copy target source) := by
  have apart {r : Reg} (hr : s.InUse first readable r) : target ≠ r := by
    rintro rfl
    rcases hr.2 with hr | hr
    · exact Nat.not_le_of_lt fixed hr
    · exact unread hr
  have appended : s.copy target source =
      { s with pending := s.pending ++ [⟨target, .copy source⟩] } := if_neg (apart inUse)
  have nothing : s.varying = [] := h.closed closed
  have h' : Sound registerOf first (fun r => readable r ∨ r = target) past s := h.mono fun _ => .inl
  refine ⟨appended, ?_⟩
  rw [appended]
  refine { h' with constants := ?_, outer := ?_, outer_orderly := ?_, computed := ?_ }
  · intro c hc
    obtain ⟨h₁, h₂, h₃, h₄⟩ := h'.constants c hc
    refine ⟨h₁, h₂, h₃, fun i hi => ?_⟩
    rw [← List.append_assoc] at hi
    rcases List.mem_append.mp hi with hi | hi
    · exact h₄ i hi
    · rw [List.mem_singleton.mp hi]
      exact Nat.ne_of_lt (Nat.lt_of_lt_of_le fixed h₁)
  · intro i hi
    rw [← List.append_assoc] at hi
    rcases List.mem_append.mp hi with hi | hi
    · exact h'.outer i hi
    · rw [List.mem_singleton.mp hi, nothing]
      refine ⟨⟨Nat.lt_of_lt_of_le fixed h.first_le, .inr (.inr rfl)⟩, List.not_mem_nil, ?_⟩
      exact List.forall_mem_singleton.mpr
        ⟨⟨inUse.1, inUse.2.imp_right .inl⟩, List.not_mem_nil⟩
  · rw [← List.append_assoc]
    refine Orderly.append_singleton h.outer_orderly (fun hr => ?_) fun j hj => ?_
    · exact apart inUse (List.mem_singleton.mp hr)
    · obtain ⟨h₁, -, h₃⟩ := h.outer j hj
      exact ⟨apart h₁, fun hr => apart (h₃ target hr).1 rfl⟩
  · intro c hc
    obtain ⟨h₁, h₂, h₃⟩ := h'.computed c hc
    refine ⟨h₁, h₂, fun ρ o => h₃ ρ ⟨o.constants, fun i hi => o.outer i ?_, o.inner⟩⟩
    rw [← List.append_assoc]
    exact List.mem_append_left _ hi

/-! ## Execution -/

/-- The registers outside of the loop are obeyed whatever changes in the loop. -/
theorem Sound.obeyed_of_agree (h : Sound registerOf first readable past s) {ρ ρ' : Reg → α}
    (obeyed : Obeyed past s False ρ) (agree : ∀ r, r ∉ s.varying → ρ' r = ρ r) :
    Obeyed past s False ρ' where
  constants c hc := (agree c.1 (h.constants c hc).2.2.1).trans (obeyed.constants c hc)
  outer i hi := by
    obtain ⟨-, target, operands⟩ := h.outer i hi
    refine (Instruction.holds_congr (agree _ target) fun r hr => ?_).mpr (obeyed.outer i hi)
    exact agree r (operands r hr).2
  inner l := l.elim

/-- Executing the pending instructions makes all equations outside of the loop true. -/
theorem Sound.obeyed_executeAll (h : Sound registerOf first readable past s) {rs : Registers α}
    (size : s.next ≤ rs.size) (constants : ∀ c ∈ s.constants, rs.value c.1 = c.2)
    (before : ∀ i ∈ past, i.Holds rs.value) :
    Obeyed past s False (executeAll s.pending rs).value := by
  obtain ⟨own, undisturbed⟩ := h.outer_orderly
  obtain ⟨-, pending, later⟩ := List.pairwise_append.mp undisturbed
  have own' : ∀ i ∈ s.pending, i.target ∉ i.operation.operands :=
    fun i hi => own i (List.mem_append_right _ hi)
  refine ⟨fun c hc => ?_, fun i hi => ?_, False.elim⟩
  · rw [value_executeAll_of_ne fun i hi => (h.constants c hc).2.2.2 i (List.mem_append_right _ hi)]
    exact constants c hc
  · rcases List.mem_append.mp hi with hi | hi
    · exact holds_executeAll_of_undisturbed (later i hi) (before i hi)
    · refine holds_executeAll ⟨own', pending⟩ (fun j hj => ?_) i hi
      exact Nat.lt_of_lt_of_le (h.outer j (List.mem_append_right _ hj)).1.1 size

/-- A pass of the loop makes the equations of its body true, and changes nothing outside. -/
theorem Sound.obeyed_pass (h : Sound registerOf first readable past s) {rs : Registers α}
    (size : s.next ≤ rs.size) (obeyed : Obeyed past s False rs.value) {looped : Prop} :
    Obeyed past s looped (executeAll s.inner rs).value := by
  have outside : Obeyed past s False (executeAll s.inner rs).value :=
    h.obeyed_of_agree obeyed fun r hr =>
      value_executeAll_of_ne (fun i hi same => hr (same.subst (motive := (· ∈ s.varying))
        (h.inner i hi).2.1)) rs
  refine ⟨outside.constants, outside.outer, fun _ => ?_⟩
  refine holds_executeAll h.inner_orderly fun i hi => ?_
  exact Nat.lt_of_lt_of_le (h.varying_lt _ (h.inner i hi).2.1) size

end

end Emission

namespace Emit

open Expr Emission

variable [ExactScalar α] {registerOf : Symbol → Option Reg} {first : Reg} {readable : Reg → Prop}
  {past : List Instruction}

/-! ## Several expressions -/

/-- The registers get the values of the expressions. -/
structure ProvidesAll (registerOf : Symbol → Option Reg) (first : Reg) (readable : Reg → Prop)
    (past : List Instruction) (s : Emission α) (es : List (Expr α)) (rs : List Reg)
    (s' : Emission α) : Prop where
  sound : Sound registerOf first readable past s'
  extends_ : Extends s s'
  carries : List.Forall₂ (fun e r => s'.InUse first readable r ∧
    s'.Carries past r fun ρ => e.value (contents registerOf ρ)) es rs

/-- Expressions are emitted one after the other. -/
theorem mapM_yields {es : List (Expr α)}
    (admissible : ∀ e ∈ es, Admissible registerOf first readable e) {s : Emission α}
    (sound : Sound registerOf first readable past s) :
    Yields (es.mapM (expr registerOf)) s
      (∀ e ∈ es, e.isEmittable (bound registerOf) = true)
      (ProvidesAll registerOf first readable past s es) := by
  induction es generalizing s with
  | nil => exact ⟨fun _ he => absurd he List.not_mem_nil, sound, Extends.refl s, .nil⟩
  | cons e es ih =>
    obtain ⟨he, hes⟩ := List.forall_mem_cons.mp admissible
    rw [List.mapM_cons]
    refine Yields.mono ((expr_yields he sound).bind fun r s₁ _ hr =>
      (ih hes hr.sound).bind fun rs s₂ _ hrs => (⟨trivial, ?_⟩ : Yields (pure (r :: rs)) s₂ True
        (ProvidesAll registerOf first readable past s (e :: es)))) ?_ fun _ _ _ h => h
    · refine ⟨hrs.sound, hr.extends_.trans hrs.extends_, .cons ⟨?_, ?_⟩ hrs.carries⟩
      · exact hrs.extends_.inUse hr.inUse
      · exact hrs.extends_.carries hr.inUse.1 hr.carries
    · rw [and_true, List.forall_mem_cons]

/-! ## Computations that succeed -/

omit [ExactScalar α] in
/-- A computation that succeeds succeeds step by step. -/
theorem bind_eq_ok {β γ : Type} {m : Emit α β} {f : β → Emit α γ} {s s' : Emission α} {c : γ}
    (h : (m >>= f) s = .ok (c, s')) : ∃ b s₁, m s = .ok (b, s₁) ∧ f b s₁ = .ok (c, s') := by
  change (m s >>= fun x => f x.1 x.2) = .ok (c, s') at h
  rcases hm : m s with _ | ⟨b, s₁⟩
  · rw [hm] at h; cases h
  · rw [hm] at h; exact ⟨b, s₁, rfl, h⟩

/-- If the computation succeeds, emission goes on soundly. -/
def Keeps (registerOf : Symbol → Option Reg) (first : Reg) (readable : Reg → Prop)
    (past : List Instruction) {β : Type} (m : Emit α β) : Prop :=
  ∀ s b s', m s = .ok (b, s') → Sound registerOf first readable past s →
    Sound registerOf first readable past s' ∧ Extends s s'

theorem keeps_expr {e : Expr α} (admissible : Admissible registerOf first readable e) :
    Keeps registerOf first readable past (expr registerOf e) := by
  intro s r s' h sound
  obtain ⟨-, provides⟩ := (expr_yields admissible sound).of_ok h
  exact ⟨provides.sound, provides.extends_⟩

theorem keeps_mapM {β γ : Type} {f : β → Emit α γ} {bs : List β}
    (h : ∀ b ∈ bs, Keeps registerOf first readable past (f b)) :
    Keeps registerOf first readable past (bs.mapM f) := by
  induction bs with
  | nil =>
    intro s cs s' hs sound
    cases hs
    exact ⟨sound, Extends.refl s⟩
  | cons b bs ih =>
    intro s cs s' hs sound
    rw [List.mapM_cons] at hs
    obtain ⟨c, s₁, h₁, hs⟩ := bind_eq_ok hs
    obtain ⟨cs', s₂, h₂, hs⟩ := bind_eq_ok hs
    cases hs
    obtain ⟨sound₁, ext₁⟩ := h b List.mem_cons_self s c s₁ h₁ sound
    obtain ⟨sound₂, ext₂⟩ := ih (fun b hb => h b (List.mem_cons_of_mem _ hb)) s₁ cs' s' h₂ sound₁
    exact ⟨sound₂, ext₁.trans ext₂⟩

end Emit

end AnalogCircuit
