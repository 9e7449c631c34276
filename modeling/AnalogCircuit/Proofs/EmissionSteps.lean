import Mathlib.Logic.Relation
import AnalogCircuit.Proofs.Grounding
import AnalogCircuit.Proofs.Law
/-!
# Emission by steps

Whatever expression is emitted, it is emitted in three kinds of steps: an operation on registers that can be read is
appended, a constant is provided, or a register that can be read is remembered. What a step keeps is kept by all that
is emitted, so that no other proof has to follow the structure of expressions.
-/

namespace AnalogCircuit

variable {α : Type}

namespace Emission

/-! ## Registers that can be read -/

/-- The register is fixed or holds a constant. -/
def Ground (first : Reg) (s : Emission α) (r : Reg) : Prop := r < first ∨ ∃ c ∈ s.constants, c.1 = r

/-- The register can be read outside of the loop. -/
def Outside (first : Reg) (past : List Instruction) (s : Emission α) (r : Reg) : Prop :=
  s.Ground first r ∨ Written (past ++ s.pending) r

/-- The register can be read. -/
def Available (first : Reg) (past : List Instruction) (s : Emission α) (r : Reg) : Prop :=
  s.Outside first past r ∨ Written s.inner r

/-- What is remembered can be read. -/
def Recalls (first : Reg) (past : List Instruction) (s : Emission α) : Prop :=
  ∀ c ∈ s.computed, s.Available first past c.2

variable {first : Reg} {past : List Instruction} {s s' : Emission α} {r : Reg}

theorem Ground.mono (hr : s.Ground first r) (constants : ∀ c ∈ s.constants, c ∈ s'.constants) :
    s'.Ground first r := by
  rcases hr with hr | ⟨c, hc, same⟩
  · exact .inl hr
  · exact .inr ⟨c, constants c hc, same⟩

theorem Outside.mono (hr : s.Outside first past r) (constants : ∀ c ∈ s.constants, c ∈ s'.constants)
    (pending : ∀ i ∈ s.pending, i ∈ s'.pending) : s'.Outside first past r := by
  rcases hr with hr | ⟨i, hi, same⟩
  · exact .inl (hr.mono constants)
  · refine .inr ⟨i, ?_, same⟩
    rcases List.mem_append.mp hi with hi | hi
    · exact List.mem_append_left _ hi
    · exact List.mem_append_right _ (pending i hi)

namespace Extends

theorem outside (h : Extends s s') (hr : s.Outside first past r) : s'.Outside first past r :=
  hr.mono h.constants h.pending

theorem available (h : Extends s s') (hr : s.Available first past r) : s'.Available first past r := by
  rcases hr with hr | ⟨i, hi, same⟩
  · exact .inl (h.outside hr)
  · exact .inr ⟨i, h.inner i hi, same⟩

/-- What was remembered before can still be read. -/
theorem recalls (h : Extends s s') (same : s'.computed = s.computed) (recalls : s.Recalls first past) :
    s'.Recalls first past := by
  unfold Recalls
  rw [same]
  exact fun c hc => h.available (recalls c hc)

end Extends

/-- A copy leaves everything as it can be read. -/
theorem Recalls.copy (h : s.Recalls first past) (target source : Reg) :
    (s.copy target source).Recalls first past := by
  unfold Emission.copy
  split
  · exact h
  · exact fun c hc => (h c hc).imp_left (·.mono (fun _ hc => hc) fun _ hi => List.mem_append_left _ hi)

/-! ## Single steps -/

theorem extends_push (s : Emission α) (o : Operation) : Extends s (s.push o).2 := by
  rcases push_cases s o with ⟨body, isOpen, pushed⟩ | ⟨-, pushed⟩
  · rw [pushed]
    exact Extends.pushInner isOpen o
  · rw [pushed]
    exact Extends.pushOuter s o

theorem available_push (s : Emission α) (o : Operation) : (s.push o).2.Available first past (s.push o).1 := by
  rcases push_cases s o with ⟨body, -, pushed⟩ | ⟨-, pushed⟩
  · rw [pushed]
    exact .inr ⟨⟨s.next, o⟩, List.mem_append_right _ List.mem_cons_self, rfl⟩
  · rw [pushed]
    exact .inl (.inr ⟨⟨s.next, o⟩, List.mem_append_right _ (List.mem_append_right _ List.mem_cons_self), rfl⟩)

theorem computed_push (s : Emission α) (o : Operation) : (s.push o).2.computed = s.computed := by
  rcases push_cases s o with ⟨body, -, pushed⟩ | ⟨-, pushed⟩ <;> rw [pushed]

variable [Scalar α]

theorem extends_constant (s : Emission α) (v : α) : Extends s (s.constant v).2 := by
  unfold Emission.constant
  split
  · exact Extends.refl s
  · exact Extends.allocate s v

theorem available_constant (s : Emission α) (v : α) :
    (s.constant v).2.Available first past (s.constant v).1 := by
  unfold Emission.constant
  split
  · next c found => exact .inl (.inl (.inr ⟨c, List.mem_of_find?_eq_some found, rfl⟩))
  · exact .inl (.inl (.inr ⟨(s.next, v), List.mem_append_right _ List.mem_cons_self, rfl⟩))

theorem computed_constant (s : Emission α) (v : α) : (s.constant v).2.computed = s.computed := by
  unfold Emission.constant
  split <;> rfl

/-- What emission can do to the state. -/
inductive Step (first : Reg) (past : List Instruction) (s : Emission α) : Emission α → Prop where
  | push (o : Operation) (operands : ∀ r ∈ o.operands, s.Available first past r) : Step first past s (s.push o).2
  | constant (v : α) : Step first past s (s.constant v).2
  | remember (e : Expr α) (r : Reg) (available : s.Available first past r) : Step first past s (s.remember e r)

theorem Step.extends_ (step : Step first past s s') : Extends s s' := by
  cases step with
  | push o => exact extends_push s o
  | constant v => exact extends_constant s v
  | remember e r => exact Extends.remember s e r

theorem Step.recalls (step : Step first past s s') (h : s.Recalls first past) : s'.Recalls first past := by
  cases step with
  | push o => exact (extends_push s o).recalls (computed_push s o) h
  | constant v => exact (extends_constant s v).recalls (computed_constant s v) h
  | remember e r available => exact List.forall_mem_cons.mpr ⟨available, h⟩

/-- Any number of steps. -/
abbrev Steps (first : Reg) (past : List Instruction) : Emission α → Emission α → Prop :=
  Relation.ReflTransGen (Step first past)

theorem Steps.extends_ (steps : Steps first past s s') : Extends s s' := by
  induction steps with
  | refl => exact Extends.refl s
  | tail _ step ih => exact ih.trans step.extends_

theorem Steps.recalls (steps : Steps first past s s') (h : s.Recalls first past) : s'.Recalls first past := by
  induction steps with
  | refl => exact h
  | tail _ step ih => exact step.recalls ih

end Emission

/-! ## Expressions -/

namespace Emit

open Expr Emission

variable {first : Reg} {past : List Instruction} {β γ : Type}

section

variable [Scalar α]

/-- If what is remembered can be read and the computation succeeds, it has taken steps only, and its result is as
stated. -/
def Proceeds (first : Reg) (past : List Instruction) (m : Emit α β) (s : Emission α)
    (post : Emission α → β → Prop) : Prop :=
  s.Recalls first past → ∀ b s', m s = .ok (b, s') → Steps first past s s' ∧ post s' b

/-- A register is returned that can be read. -/
abbrev Supplies (first : Reg) (past : List Instruction) (m : Emit α Reg) (s : Emission α) : Prop :=
  Proceeds first past m s fun s' r => s'.Available first past r

namespace Proceeds

variable {m : Emit α β} {f : β → Emit α γ} {s : Emission α} {post : Emission α → β → Prop}
  {after : Emission α → γ → Prop}

theorem bind (hm : Proceeds first past m s post)
    (hf : ∀ b s₁, Extends s s₁ → post s₁ b → Proceeds first past (f b) s₁ after) :
    Proceeds first past (m >>= f) s after := by
  intro recalls c s' h
  obtain ⟨b, s₁, h₁, h₂⟩ := bind_eq_ok h
  obtain ⟨steps, hb⟩ := hm recalls b s₁ h₁
  obtain ⟨steps', hc⟩ := hf b s₁ steps.extends_ hb (steps.recalls recalls) c s' h₂
  exact ⟨steps.trans steps', hc⟩

theorem pure {b : β} (hb : post s b) : Proceeds first past (Pure.pure b : Emit α β) s post := by
  intro _ b' s' h
  cases h
  exact ⟨.refl, hb⟩

theorem throw (e : Error) : Proceeds first past (MonadExcept.throw e : Emit α β) s post :=
  fun _ _ _ h => by cases h

/-- Computations one after the other, whose results stay as they are stated. -/
theorem mapM {post : β → Emission α → γ → Prop} (each : ∀ b s, Proceeds first past (f b) s (post b))
    (stays : ∀ b s s' c, Extends s s' → post b s c → post b s' c) (bs : List β) (s : Emission α) :
    Proceeds first past (bs.mapM f) s fun s' cs =>
      cs.length = bs.length ∧ ∀ c ∈ cs, ∃ b ∈ bs, post b s' c := by
  induction bs generalizing s with
  | nil => exact pure ⟨rfl, fun _ h => absurd h List.not_mem_nil⟩
  | cons b bs ih =>
    rw [List.mapM_cons]
    refine (each b s).bind fun c s₁ _ hc => (ih s₁).bind fun cs s₂ ext₂ hcs => pure ⟨?_, ?_⟩
    · exact congrArg (· + 1) hcs.1
    · refine List.forall_mem_cons.mpr ⟨⟨b, List.mem_cons_self, stays b _ _ _ ext₂ hc⟩, fun c' hc' => ?_⟩
      obtain ⟨b', hb', found⟩ := hcs.2 c' hc'
      exact ⟨b', List.mem_cons_of_mem _ hb', found⟩

end Proceeds

variable {s : Emission α}

theorem operation_supplies {o : Operation} (operands : ∀ r ∈ o.operands, s.Available first past r) :
    Supplies first past (operation o) s := by
  intro _ r s' h
  have available : (s.push o).2.Available first past (s.push o).1 := available_push s o
  have step : Step first past s (s.push o).2 := .push o operands
  rw [show s.push o = (r, s') from Except.ok.inj h] at available step
  exact ⟨.single step, available⟩

theorem constant_supplies (v : α) : Supplies first past (constant v) s := by
  intro _ r s' h
  have available : (s.constant v).2.Available first past (s.constant v).1 := available_constant s v
  have step : Step first past s (s.constant v).2 := .constant v
  rw [show s.constant v = (r, s') from Except.ok.inj h] at available step
  exact ⟨.single step, available⟩

theorem remember_supplies (e : Expr α) {r : Reg} (hr : s.Available first past r) :
    Supplies first past (remember e r) s := by
  intro _ r' s' h
  cases h
  exact ⟨.single (.remember e r hr), (Extends.remember s e r).available hr⟩

/-- What is remembered need not be computed again. -/
theorem cached_supplies {e : Expr α} {m : Emit α Reg} (hm : Supplies first past m s) :
    Supplies first past (do
      match (← get).register? e with
      | some r => return r
      | none => m) s := by
  change Supplies first past (match s.register? e with | some r => pure r | none => m) s
  split
  · next r found =>
    unfold register? at found
    obtain ⟨c, hc, rfl⟩ := Option.map_eq_some_iff.mp found
    exact fun recalls => Proceeds.pure (recalls c (List.mem_of_find?_eq_some hc)) recalls
  · exact hm

variable {registerOf : Symbol → Option Reg} {n : Nat}

/-- Everything smaller than `n` is emitted by steps. -/
structure Proceeding (registerOf : Symbol → Option Reg) (first : Reg) (past : List Instruction) (α : Type)
    [Scalar α] (n : Nat) : Prop where
  expr (e : Expr α) : 2 * e.size < n → ∀ s, Supplies first past (expr registerOf e) s
  sum (ts : List (Expr α)) (total : Option Reg) : 2 * sizeList ts + 1 < n →
    ∀ s, (∀ a ∈ total, s.Available first past a) → Supplies first past (sum registerOf total ts) s
  chain (fs : List (Expr α)) (total : Option Reg) : 2 * sizeList fs + 1 < n →
    ∀ s, (∀ a ∈ total, s.Available first past a) → Supplies first past (chain registerOf total fs) s

theorem chain_supplies (h : Proceeding registerOf first past α n) (fs : List (Expr α)) (total : Option Reg)
    (size : 2 * sizeList fs + 1 < n + 1) (available : ∀ a ∈ total, s.Available first past a) :
    Supplies first past (chain registerOf total fs) s := by
  rw [chain.eq_def]
  cases fs with
  | nil =>
    cases total with
    | some a => exact Proceeds.pure (available a rfl)
    | none => exact constant_supplies 1
  | cons f fs =>
    have positive := size_pos f
    rw [sizeList] at size
    have rest (y : Reg) (s₂ : Emission α) (hy : s₂.Available first past y) :
        Supplies first past (chain registerOf (some y) fs) s₂ :=
      h.chain fs (some y) (by omega) s₂ fun _ ha => Option.some.inj ha ▸ hy
    refine (h.expr f (by omega) s).bind fun r s₁ ext₁ hr => ?_
    cases total with
    | none => exact rest r s₁ hr
    | some a =>
      have ha := ext₁.available (available a rfl)
      refine (operation_supplies (o := .mul a r) ?_).bind fun y s₂ _ hy => rest y s₂ hy
      simp [Operation.operands, ha, hr]

theorem sum_supplies (h : Proceeding registerOf first past α n) (ts : List (Expr α)) (total : Option Reg)
    (size : 2 * sizeList ts + 1 < n + 1) (available : ∀ a ∈ total, s.Available first past a) :
    Supplies first past (sum registerOf total ts) s := by
  rw [sum.eq_def]
  cases ts with
  | nil =>
    cases total with
    | some a => exact Proceeds.pure (available a rfl)
    | none => exact constant_supplies 0
  | cons t ts =>
    have positive := size_pos t
    rw [sizeList] at size
    -- the total so far is in a register, or there is none
    have rest (y : Reg) (s₂ : Emission α) (hy : s₂.Available first past y) :
        Supplies first past (sum registerOf (some y) ts) s₂ :=
      h.sum ts (some y) (by omega) s₂ fun _ ha => Option.some.inj ha ▸ hy
    dsimp only
    split
    · next d hd =>
      have smaller := size_of_subtrahend? hd
      refine (h.expr d (by omega) s).bind fun r s₁ ext₁ hr => ?_
      cases total with
      | none =>
        refine (operation_supplies (o := .neg r) ?_).bind fun y s₂ _ hy => rest y s₂ hy
        simp [Operation.operands, hr]
      | some a =>
        have ha := ext₁.available (available a rfl)
        refine (operation_supplies (o := .sub a r) ?_).bind fun y s₂ _ hy => rest y s₂ hy
        simp [Operation.operands, ha, hr]
    · refine (h.expr t (by omega) s).bind fun r s₁ ext₁ hr => ?_
      cases total with
      | none => exact rest r s₁ hr
      | some a =>
        have ha := ext₁.available (available a rfl)
        refine (operation_supplies (o := .add a r) ?_).bind fun y s₂ _ hy => rest y s₂ hy
        simp [Operation.operands, ha, hr]

theorem power_supplies {b : Reg} {e : Expr α} {exponent : Emit α Reg} (hb : s.Available first past b)
    (he : Supplies first past exponent s) : Supplies first past (power b e exponent) s := by
  unfold power
  split
  · exact operation_supplies (by simp [Operation.operands, hb])
  split
  · exact operation_supplies (by simp [Operation.operands, hb])
  refine he.bind fun r s₁ ext₁ hr => operation_supplies ?_
  simp [Operation.operands, ext₁.available hb, hr]

/-- An operation on two expressions. -/
theorem binary_supplies (h : Proceeding registerOf first past α n) {a b e : Expr α} (o : Reg → Reg → Operation)
    (operands : ∀ x y, (o x y).operands = [x, y]) (size_a : 2 * a.size < n) (size_b : 2 * b.size < n) :
    Supplies first past (do
      let a' ← expr registerOf a
      let b' ← expr registerOf b
      remember e (← operation (o a' b'))) s := by
  refine (h.expr a size_a s).bind fun x s₁ _ hx => (h.expr b size_b s₁).bind fun y s₂ ext₂ hy =>
    (operation_supplies ?_).bind fun _ _ _ hz => remember_supplies e hz
  simp [operands, ext₂.available hx, hy]

/-- A product is emitted as a quotient of two products. -/
theorem product_supplies (h : Proceeding registerOf first past α n) {fs : List (Expr α)}
    (size : 2 * (product fs).size < n + 1) :
    Supplies first past (do
      let dividend ← chain registerOf none (dividends fs)
      if (divisors fs).isEmpty then remember (.product fs) dividend
      else
        let divisor ← chain registerOf none (divisors fs)
        remember (.product fs) (← operation (.div dividend divisor))) s := by
  have size_dividends := sizeList_dividends_le fs
  have size_divisors := sizeList_divisors_le fs
  rw [Expr.size] at size
  refine (h.chain (dividends fs) none (by omega) s (by simp)).bind fun x s₁ _ hx => ?_
  split
  · exact remember_supplies _ hx
  refine (h.chain (divisors fs) none (by omega) s₁ (by simp)).bind fun y s₂ ext₂ hy =>
    (operation_supplies ?_).bind fun _ _ _ hz => remember_supplies _ hz
  simp [Operation.operands, ext₂.available hx, hy]

theorem call_supplies (h : Proceeding registerOf first past α n) {f : Builtin} {args : List (Expr α)}
    (size : 2 * (call f args).size < n + 1) :
    Supplies first past (if args.length ≠ f.arity then throw (.arityMismatch f.name f.arity args.length)
      else match args with
        | [a] => do
          remember (.call f [a]) (← operation (.unary f (← expr registerOf a)))
        | [a, b] => do
          let a' ← expr registerOf a
          let b' ← expr registerOf b
          remember (.call f [a, b]) (← operation (.binary f a' b'))
        | _ => throw (.unsupportedFunction f.name)) s := by
  rw [Expr.size] at size
  split
  · exact Proceeds.throw _
  rcases args with _ | ⟨a, _ | ⟨b, _ | ⟨_, _⟩⟩⟩
  · exact Proceeds.throw _
  · rw [sizeList] at size
    refine (h.expr a (by omega) s).bind fun x s₁ _ hx =>
      (operation_supplies ?_).bind fun _ _ _ hz => remember_supplies _ hz
    simp [Operation.operands, hx]
  · rw [sizeList, sizeList] at size
    exact binary_supplies h (.binary f) (fun _ _ => rfl) (by omega) (by omega)
  · exact Proceeds.throw _

theorem select_supplies (h : Proceeding registerOf first past α n) {c a b : Expr α}
    (size : 2 * (select c a b).size < n + 1) :
    Supplies first past (do
      let c' ← expr registerOf c
      let a' ← expr registerOf a
      let b' ← expr registerOf b
      remember (select c a b) (← operation (.select c' a' b'))) s := by
  rw [Expr.size] at size
  refine (h.expr c (by omega) s).bind fun z s₁ _ hz => (h.expr a (by omega) s₁).bind fun x s₂ ext₂ hx =>
    (h.expr b (by omega) s₂).bind fun y s₃ ext₃ hy =>
      (operation_supplies ?_).bind fun _ _ _ hw => remember_supplies _ hw
  simp [Operation.operands, ext₃.available (ext₂.available hz), ext₃.available hx, hy]

theorem expr_proceeding (fixed : ∀ x r, registerOf x = some r → r < first)
    (h : Proceeding registerOf first past α n) (e : Expr α) (size : 2 * e.size < n + 1) :
    Supplies first past (expr registerOf e) s := by
  rw [expr.eq_def]
  refine cached_supplies ?_
  cases e with
  | num v => exact constant_supplies v
  | sym x =>
    dsimp only
    split
    · next r hr => exact Proceeds.pure (.inl (.inl (.inl (fixed x r hr))))
    · exact Proceeds.throw _
  | sum ts =>
    rw [Expr.size] at size
    exact (h.sum ts none (by omega) s (by simp)).bind fun _ _ _ hr => remember_supplies _ hr
  | product fs => exact product_supplies h size
  | power b e =>
    rw [Expr.size] at size
    exact (h.expr b (by omega) s).bind fun r s₁ _ hr =>
      (power_supplies hr (h.expr e (by omega) s₁)).bind fun _ _ _ hx => remember_supplies _ hx
  | call f args => exact call_supplies h size
  | compare c a b =>
    rw [Expr.size] at size
    exact binary_supplies h (.compare c) (fun _ _ => rfl) (by omega) (by omega)
  | select c a b => exact select_supplies h size
  | apply f args => exact Proceeds.throw _
  | derivative x t => exact Proceeds.throw _
  | integral x t => exact Proceeds.throw _

theorem proceeding (fixed : ∀ x r, registerOf x = some r → r < first) (n : Nat) :
    Proceeding registerOf first past α n := by
  induction n with
  | zero =>
    exact ⟨fun _ h => absurd h (Nat.not_lt_zero _), fun _ _ h => absurd h (Nat.not_lt_zero _),
      fun _ _ h => absurd h (Nat.not_lt_zero _)⟩
  | succ n ih =>
    exact ⟨fun e size _ => expr_proceeding fixed ih e size,
      fun ts total size _ available => sum_supplies ih ts total size available,
      fun fs total size _ available => chain_supplies ih fs total size available⟩

/-- Any expression is emitted by steps, and its register can be read. -/
theorem expr_supplies (fixed : ∀ x r, registerOf x = some r → r < first) (e : Expr α) (s : Emission α) :
    Supplies first past (expr registerOf e) s :=
  (proceeding fixed (2 * e.size + 1)).expr e (Nat.lt_succ_self _) s

end

end Emit

/-! ## Laws -/

namespace Program

open Emission Emit

variable [Scalar α] {law : UpdateLaw α} {past : List Instruction} {s s' : Emission α}

/-- The loop of an iteration has been emitted by steps up to its end, and what it is to read can be read. -/
structure Iterated (law : UpdateLaw α) (n : NewtonIteration α) (s : Emission α) (residuals : List Reg)
    (jacobian : List (Nat × Nat × Reg)) : Prop where
  steps : Steps (layoutOf law).size []
    ((start (layoutOf law).size).openLoop ((iteratedUnknowns law n).map (·.1))) s
  length : residuals.length = n.residuals.length
  residuals : ∀ r ∈ residuals, s.Available (layoutOf law).size [] r
  entries : ∀ x ∈ jacobian, ∃ e ∈ n.entries, x.1 = e.1 ∧ x.2.1 = e.2.1
  jacobian : ∀ x ∈ jacobian, s.Available (layoutOf law).size [] x.2.2

theorem newtonBlocks_iterated {n : NewtonIteration α} {blocks : List Block}
    (h : newtonBlocks law (registerOf law) n (.start (layoutOf law).size) = .ok (blocks, s)) :
    ∃ residuals jacobian s₁, Iterated law n s₁ residuals jacobian ∧
      blocks = s₁.flush.1 ++ [.newton ⟨iteratedUnknowns law n, s₁.inner, residuals, jacobian⟩] ∧
      s = s₁.closeLoop.2.flush.2 := by
  obtain ⟨residuals, jacobian, s₁, s₂, h₁, h₂, rfl, rfl⟩ := newtonBlocks_steps h
  have fixed (x : Symbol) (r : Reg) (h : registerOf law x = some r) : r < (layoutOf law).size :=
    registerOf_lt h
  have emitted (e : Expr α) (s : Emission α) : Supplies (layoutOf law).size [] (Emit.expr (registerOf law) e) s :=
    expr_supplies fixed e s
  have entry (e : Nat × Nat × Expr α) (s : Emission α) :
      Proceeds (layoutOf law).size [] (do return (e.1, e.2.1, ← Emit.expr (registerOf law) e.2.2)) s
        fun s' (x : Nat × Nat × Reg) =>
          x.1 = e.1 ∧ x.2.1 = e.2.1 ∧ s'.Available (layoutOf law).size [] x.2.2 :=
    (emitted e.2.2 s).bind fun r s₁ _ hr => .pure ⟨rfl, rfl, hr⟩
  have nothing : ((start (layoutOf law).size : Emission α).openLoop ((iteratedUnknowns law n).map (·.1))).Recalls
      (layoutOf law).size [] := fun _ h => absurd h List.not_mem_nil
  obtain ⟨steps₁, length, readable₁⟩ := Proceeds.mapM emitted (fun _ _ _ _ ext => ext.available)
    n.residuals _ nothing residuals s₁ h₁
  obtain ⟨steps₂, -, readable₂⟩ := Proceeds.mapM entry
    (fun _ _ _ _ ext hx => ⟨hx.1, hx.2.1, ext.available hx.2.2⟩) n.entries _ (steps₁.recalls nothing) jacobian s₂ h₂
  refine ⟨residuals, jacobian, s₂, ⟨steps₁.trans steps₂, length, fun r hr => ?_, fun x hx => ?_, fun x hx => ?_⟩,
    rfl, rfl⟩
  · obtain ⟨-, -, available⟩ := readable₁ r hr
    exact steps₂.extends_.available available
  · obtain ⟨e, he, row, column, -⟩ := readable₂ x hx
    exact ⟨e, he, row, column⟩
  · obtain ⟨-, -, -, -, available⟩ := readable₂ x hx
    exact available

/-- The value of an assignment is emitted by steps, and then copied to its unknown, if that has a place. -/
theorem assign_proceeds {a : Assignment α} (recalls : s.Recalls (layoutOf law).size past)
    (h : assign law (registerOf law) a s = .ok ((), s')) :
    ∃ r s₁, Steps (layoutOf law).size past s s₁ ∧ s₁.Available (layoutOf law).size past r ∧
      s'.Recalls (layoutOf law).size past ∧
      (target? law a = none ∧ s' = s₁ ∨ ∃ i, placeOf? law a.unknown = some i ∧
        target? law a = some ((layoutOf law).unknown i) ∧ s' = s₁.copy ((layoutOf law).unknown i) r) := by
  obtain ⟨r, s₁, emitted, stored⟩ := assign_steps h
  obtain ⟨steps, available⟩ := expr_supplies (fun _ _ h => registerOf_lt h) a.value s recalls r s₁ emitted
  refine ⟨r, s₁, steps, available, ?_, stored⟩
  obtain ⟨-, rfl⟩ | ⟨i, -, -, rfl⟩ := stored
  · exact steps.recalls recalls
  · exact (steps.recalls recalls).copy _ _

end Program

end AnalogCircuit
