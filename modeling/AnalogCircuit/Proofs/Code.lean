import AnalogCircuit.Proofs.Emission
/-!
# The code of an expression

Emission of an expression succeeds exactly if code can be emitted for it, and then the register that is returned
carries its value. The proof is one induction on the size of what is emitted, for expressions, sums and products
together; a register that changes in the loop makes everything that is computed from it change.
-/

namespace AnalogCircuit

variable {α : Type}

/-! ## Computations that may fail -/

/-- The computation succeeds exactly if it is possible, and then its result and state are as stated. -/
def Yields {β : Type} (m : Emit α β) (s : Emission α) (possible : Prop)
    (post : β → Emission α → Prop) : Prop :=
  match m s with
  | .ok (b, s') => possible ∧ post b s'
  | .error _ => ¬possible

namespace Yields

variable {β γ : Type} {m : Emit α β} {f : β → Emit α γ} {s : Emission α} {p q : Prop}
  {post post' : β → Emission α → Prop} {after : γ → Emission α → Prop}

theorem throw (e : Error) (h : ¬p) : Yields (MonadExcept.throw e : Emit α β) s p post := h

/-- One computation after another. -/
theorem bind (hm : Yields m s p post)
    (hf : ∀ b s', p → post b s' → Yields (f b) s' q after) : Yields (m >>= f) s (p ∧ q) after := by
  unfold Yields at *
  show match (m s >>= fun x => f x.1 x.2) with
    | .ok (b, s') => (p ∧ q) ∧ after b s'
    | .error _ => ¬(p ∧ q)
  rcases h : m s with _ | ⟨b, s'⟩
  · rw [h] at hm
    exact fun hpq => hm hpq.1
  · rw [h] at hm
    obtain ⟨hp, hb⟩ := hm
    have next := hf b s' hp hb
    show match f b s' with
      | .ok (c, s'') => (p ∧ q) ∧ after c s''
      | .error _ => ¬(p ∧ q)
    rcases h' : f b s' with _ | ⟨c, s''⟩
    · rw [h'] at next
      exact fun hpq => next hpq.2
    · rw [h'] at next
      exact ⟨⟨hp, next.1⟩, next.2⟩

theorem mono (h : Yields m s p post) (same : p ↔ q) (le : ∀ b s', p → post b s' → post' b s') :
    Yields m s q post' := by
  unfold Yields at *
  split at h
  · exact ⟨same.mp h.1, le _ _ h.1 h.2⟩
  · exact fun hq => h (same.mpr hq)

/-- A computation that is possible has a result. -/
theorem exists_ok (h : Yields m s p post) (hp : p) : ∃ b s', m s = .ok (b, s') ∧ post b s' := by
  unfold Yields at h
  rcases hm : m s with _ | ⟨b, s'⟩
  · rw [hm] at h; exact absurd hp h
  · rw [hm] at h; exact ⟨b, s', rfl, h.2⟩

/-- A result is possible and as stated. -/
theorem of_ok (h : Yields m s p post) {b : β} {s' : Emission α} (hm : m s = .ok (b, s')) :
    p ∧ post b s' := by
  unfold Yields at h
  rw [hm] at h
  exact h

end Yields

namespace Emission

section

variable [Scalar α] {registerOf : Symbol → Option Reg} {first : Reg} {readable : Reg → Prop}
  {past : List Instruction} {s s₁ s₂ : Emission α} {f g : (Reg → α) → α} {a r : Reg}

/-- What was computed before still has its value, if it changes in the loop only where that is obeyed. -/
theorem Computes.value_eq (h : Computes registerOf first readable past s s₁ a f)
    (ext : Extends s₁ s₂) {looped : Prop} (changes : a ∈ s₁.varying → looped) {ρ : Reg → α}
    (obeyed : Obeyed past s₂ looped ρ) : f ρ = ρ a :=
  h.carries ρ (ext.obeyed obeyed changes)

/-- Two steps in a row compute what the second does. -/
theorem Computes.trans (h : Extends s s₁) (h' : Computes registerOf first readable past s₁ s₂ r f)
    (same : ∀ ρ, Obeyed past s₂ (r ∈ s₂.varying) ρ → g ρ = f ρ) :
    Computes registerOf first readable past s s₂ r g where
  sound := h'.sound
  extends_ := h.trans h'.extends_
  inUse := h'.inUse
  carries ρ obeyed := (same ρ obeyed).trans (h'.carries ρ obeyed)

end

end Emission

namespace Emit

open Expr Emission

variable [ExactScalar α] {registerOf : Symbol → Option Reg} {first : Reg} {readable : Reg → Prop}
  {past : List Instruction}

/-- An operation on registers in use is computed. -/
theorem operation_yields {s : Emission α} (h : Sound registerOf first readable past s)
    {o : Operation} (operands : ∀ r ∈ o.operands, s.InUse first readable r) :
    Yields (operation o) s True fun r s' => Computes registerOf first readable past s s' r o.value ∧
      ∀ a ∈ o.operands, a ∈ s.varying → r ∈ s'.varying := ⟨trivial, h.push operands⟩

/-- An operation computes what it makes of its operands: wherever its result matters, whatever an operand carries is its
value. -/
theorem applied_yields {s s₁ : Emission α} (ext : Extends s s₁) (h : Sound registerOf first readable past s₁)
    {o : Operation} (operands : ∀ r ∈ o.operands, s₁.InUse first readable r) {g : (Reg → α) → α}
    (meaning : ∀ ρ, (∀ r ∈ o.operands, ∀ f, s₁.Carries past r f → f ρ = ρ r) → g ρ = o.value ρ) :
    Yields (operation o) s₁ True fun r s' => Computes registerOf first readable past s s' r g ∧
      ∀ a ∈ o.operands, s.InUse first readable a → a ∈ s.varying → r ∈ s'.varying := by
  refine (operation_yields h operands).mono Iff.rfl ?_
  rintro r s₂ - ⟨hr, moves⟩
  refine ⟨Computes.trans ext hr fun ρ obeyed => meaning ρ fun a ha f carries => ?_, fun a ha inUse hv => ?_⟩
  · exact carries ρ (hr.extends_.obeyed obeyed (moves a ha))
  · exact moves a ha ((ext.varying a inUse.1).mpr hv)

theorem constant_yields {s : Emission α} (h : Sound registerOf first readable past s) (v : α) :
    Yields (constant v) s True fun r s' =>
      Computes registerOf first readable past s s' r fun _ => v := ⟨trivial, h.constant v⟩

/-- What emission may be asked for: exponents are integral constants and symbols with a register readable. -/
def Admissible (registerOf : Symbol → Option Reg) (first : Reg) (readable : Reg → Prop) (e : Expr α) :
    Prop :=
  hasIntegralPowers e = true ∧
    ∀ x, e.contains x = true → ∀ r, registerOf x = some r → r < first ∧ readable r

/-- The symbols with a register. -/
abbrev bound (registerOf : Symbol → Option Reg) (x : Symbol) : Bool := (registerOf x).isSome

/-- The register gets the value of the expression. -/
abbrev Provides (registerOf : Symbol → Option Reg) (first : Reg) (readable : Reg → Prop)
    (past : List Instruction) (s : Emission α) (e : Expr α) (r : Reg) (s' : Emission α) : Prop :=
  Computes registerOf first readable past s s' r fun ρ => e.value (contents registerOf ρ)

/-- What is remembered need not be computed again. -/
theorem cached_yields {s : Emission α} (h : Sound registerOf first readable past s) {e : Expr α}
    {m : Emit α Reg}
    (hm : Yields m s (e.isEmittable (bound registerOf) = true)
      (Provides registerOf first readable past s e)) :
    Yields (do
      match (← get).register? e with
      | some r => return r
      | none => m) s (e.isEmittable (bound registerOf) = true)
      (Provides registerOf first readable past s e) := by
  show Yields (match s.register? e with | some r => pure r | none => m) s _ _
  split
  · next r found =>
    unfold register? at found
    obtain ⟨c, hc, rfl⟩ := Option.map_eq_some_iff.mp found
    have same : c.1 = e := eq_of_beq (List.find?_some (p := fun x : Expr α × Reg => x.1 == e) hc)
    obtain ⟨inUse, emittable, carries⟩ := h.computed c (List.mem_of_find?_eq_some hc)
    rw [same] at emittable carries
    exact ⟨emittable, h, Extends.refl s, inUse, carries⟩
  · exact hm

/-- Emission is right for everything smaller than `n`. -/
structure Right (registerOf : Symbol → Option Reg) (first : Reg) (readable : Reg → Prop)
    (past : List Instruction) (α : Type) [ExactScalar α] (n : Nat) : Prop where
  expr (e : Expr α) : 2 * e.size < n → Admissible registerOf first readable e →
    ∀ s, Sound registerOf first readable past s →
      Yields (expr registerOf e) s (e.isEmittable (bound registerOf) = true)
        (Provides registerOf first readable past s e)
  sum (ts : List (Expr α)) (total : Option Reg) : 2 * sizeList ts + 1 < n →
    (∀ t ∈ ts, Admissible registerOf first readable t) →
    ∀ s, Sound registerOf first readable past s → (∀ a ∈ total, s.InUse first readable a) →
      Yields (sum registerOf total ts) s (∀ t ∈ ts, t.isEmittable (bound registerOf) = true)
        fun r s' => Computes registerOf first readable past s s' r
          (fun ρ => total.elim 0 ρ + (ts.map (value (contents registerOf ρ))).sum) ∧
          ∀ a ∈ total, a ∈ s.varying → r ∈ s'.varying
  chain (fs : List (Expr α)) (total : Option Reg) : 2 * sizeList fs + 1 < n →
    (∀ f ∈ fs, Admissible registerOf first readable f) →
    ∀ s, Sound registerOf first readable past s → (∀ a ∈ total, s.InUse first readable a) →
      Yields (chain registerOf total fs) s (∀ f ∈ fs, f.isEmittable (bound registerOf) = true)
        fun r s' => Computes registerOf first readable past s s' r
          (fun ρ => total.elim 1 ρ * (fs.map (value (contents registerOf ρ))).prod) ∧
          ∀ a ∈ total, a ∈ s.varying → r ∈ s'.varying

section

variable {n : Nat} {s : Emission α}

theorem Admissible.mem {es : List (Expr α)} (powers : ∀ e ∈ es, hasIntegralPowers e = true)
    (readable_symbols : ∀ x, dependsOnList (· == x) es = true → ∀ r, registerOf x = some r →
      r < first ∧ readable r) : ∀ e ∈ es, Admissible registerOf first readable e :=
  fun e he => ⟨powers e he, fun x hx =>
    readable_symbols x (dependsOnList_eq_true_iff.mpr ⟨e, he, hx⟩)⟩

/-! ## Sums and products -/

/-- An operation on the total, if there is one, and on what was computed since. -/
theorem take_yields {total : Option Reg} {r : Reg} {s₁ : Emission α} {f g : (Reg → α) → α} {o : Operation}
    (inUse : ∀ a ∈ total, s.InUse first readable a) (hr : Computes registerOf first readable past s s₁ r f)
    (operands : o.operands = total.toList ++ [r]) (meaning : ∀ ρ, f ρ = ρ r → g ρ = o.value ρ) :
    Yields (operation o) s₁ True fun y s₂ => Computes registerOf first readable past s s₂ y g ∧
      ∀ a ∈ total, a ∈ s.varying → y ∈ s₂.varying := by
  have taken : ∀ a ∈ total, a ∈ o.operands := by
    intro a ha
    rw [operands]
    exact List.mem_append_left _ (Option.mem_toList.mpr ha)
  have last : r ∈ o.operands := by
    rw [operands]
    exact List.mem_append_right _ List.mem_cons_self
  refine (applied_yields (g := g) hr.extends_ hr.sound ?_ fun ρ values => ?_).mono Iff.rfl fun y s₂ _ applied =>
    ⟨applied.1, fun a ha => applied.2 a (taken a ha) (inUse a ha)⟩
  · rw [operands]
    refine List.forall_mem_append.mpr ⟨fun a ha => ?_, List.forall_mem_singleton.mpr hr.inUse⟩
    exact hr.extends_.inUse (inUse a (Option.mem_toList.mp ha))
  · exact meaning ρ (values r last _ hr.carries)

/-- What goes on from a register goes on from the value that was computed for it. -/
theorem onward {m : Emit α Reg} {p : Prop} {total : Option Reg} {y : Reg} {s₂ : Emission α} {f : (Reg → α) → α}
    {k : α → (Reg → α) → α} (hy : Computes registerOf first readable past s s₂ y f)
    (moves : ∀ a ∈ total, a ∈ s.varying → y ∈ s₂.varying)
    (hm : Yields m s₂ p fun r s' => Computes registerOf first readable past s₂ s' r (fun ρ => k (ρ y) ρ) ∧
      ∀ a ∈ some y, a ∈ s₂.varying → r ∈ s'.varying) :
    Yields m s₂ p fun r s' => Computes registerOf first readable past s s' r (fun ρ => k (f ρ) ρ) ∧
      ∀ a ∈ total, a ∈ s.varying → r ∈ s'.varying := by
  refine hm.mono Iff.rfl ?_
  rintro r s₃ - ⟨hr, changes⟩
  refine ⟨Computes.trans hy.extends_ hr fun ρ obeyed => ?_, fun a ha hv => changes y rfl (moves a ha hv)⟩
  exact congrArg (k · ρ) (hy.value_eq hr.extends_ (changes y rfl) obeyed)

/-- Once the first factor is in the total, the others follow. -/
theorem chain_step (h : Right registerOf first readable past α n) {f : Expr α} {fs : List (Expr α)}
    {total : Option Reg} {y : Reg} {s₂ : Emission α} (size : 2 * sizeList fs + 1 < n)
    (admissible : ∀ f ∈ fs, Admissible registerOf first readable f)
    (hy : Computes registerOf first readable past s s₂ y
      fun ρ => total.elim 1 ρ * value (contents registerOf ρ) f)
    (moves : ∀ a ∈ total, a ∈ s.varying → y ∈ s₂.varying) :
    Yields (chain registerOf (some y) fs) s₂ (∀ f ∈ fs, f.isEmittable (bound registerOf) = true)
      fun r s' => Computes registerOf first readable past s s' r
        (fun ρ => total.elim 1 ρ * ((f :: fs).map (value (contents registerOf ρ))).prod) ∧
        ∀ a ∈ total, a ∈ s.varying → r ∈ s'.varying := by
  have inUse : ∀ a ∈ some y, s₂.InUse first readable a := by
    rintro _ ⟨⟩
    exact hy.inUse
  have others := onward (k := fun v ρ => v * (fs.map (value (contents registerOf ρ))).prod) hy moves
    (h.chain fs (some y) size admissible s₂ hy.sound inUse)
  simpa only [List.map_cons, List.prod_cons, mul_assoc] using others

/-- A product is emitted factor by factor. -/
theorem chain_right (h : Right registerOf first readable past α n)
    (fs : List (Expr α)) (total : Option Reg) (size : 2 * sizeList fs + 1 < n + 1)
    (admissible : ∀ f ∈ fs, Admissible registerOf first readable f)
    (sound : Sound registerOf first readable past s)
    (inUse : ∀ a ∈ total, s.InUse first readable a) :
    Yields (chain registerOf total fs) s (∀ f ∈ fs, f.isEmittable (bound registerOf) = true)
      fun r s' => Computes registerOf first readable past s s' r
        (fun ρ => total.elim 1 ρ * (fs.map (value (contents registerOf ρ))).prod) ∧
        ∀ a ∈ total, a ∈ s.varying → r ∈ s'.varying := by
  rw [chain.eq_def]
  cases fs with
  | nil =>
    dsimp only
    cases total with
    | some a =>
      refine ⟨fun _ hf => absurd hf List.not_mem_nil, ⟨sound, Extends.refl s, inUse a rfl, ?_⟩, ?_⟩
      · intro ρ _
        simp
      · rintro _ ⟨⟩ hv
        exact hv
    | none =>
      refine (constant_yields sound 1).mono (by simp) fun r s' _ hr => ⟨?_, by simp⟩
      exact Computes.trans (Extends.refl s) hr fun ρ _ => by simp
  | cons f fs =>
    obtain ⟨hf, hfs⟩ := List.forall_mem_cons.mp admissible
    have positive := size_pos f
    rw [sizeList] at size
    dsimp only
    rw [List.forall_mem_cons]
    refine (h.expr f (by omega) hf s sound).bind fun r s₁ _ hr => ?_
    cases total with
    | none =>
      refine chain_step h (by omega) hfs (Computes.trans (Extends.refl s) hr fun ρ _ => ?_) (by simp)
      exact one_mul _
    | some a =>
      rw [← true_and (∀ f ∈ fs, f.isEmittable (bound registerOf) = true)]
      refine (take_yields (o := .mul a r) inUse hr rfl fun ρ value_f => ?_).bind fun y s₂ _ taken =>
        chain_step h (by omega) hfs taken.1 taken.2
      exact congrArg (ρ a * ·) value_f

/-- Once the first term is in the total, the others follow. -/
theorem sum_step (h : Right registerOf first readable past α n) {t : Expr α} {ts : List (Expr α)}
    {total : Option Reg} {y : Reg} {s₂ : Emission α} (size : 2 * sizeList ts + 1 < n)
    (admissible : ∀ t ∈ ts, Admissible registerOf first readable t)
    (hy : Computes registerOf first readable past s s₂ y
      fun ρ => total.elim 0 ρ + value (contents registerOf ρ) t)
    (moves : ∀ a ∈ total, a ∈ s.varying → y ∈ s₂.varying) :
    Yields (sum registerOf (some y) ts) s₂ (∀ t ∈ ts, t.isEmittable (bound registerOf) = true)
      fun r s' => Computes registerOf first readable past s s' r
        (fun ρ => total.elim 0 ρ + ((t :: ts).map (value (contents registerOf ρ))).sum) ∧
        ∀ a ∈ total, a ∈ s.varying → r ∈ s'.varying := by
  have inUse : ∀ a ∈ some y, s₂.InUse first readable a := by
    rintro _ ⟨⟩
    exact hy.inUse
  have others := onward (k := fun v ρ => v + (ts.map (value (contents registerOf ρ))).sum) hy moves
    (h.sum ts (some y) size admissible s₂ hy.sound inUse)
  simpa only [List.map_cons, List.sum_cons, add_assoc] using others

/-- Symbols with a register have a value. -/
theorem hasValue {e : Expr α} (emittable : e.isEmittable (bound registerOf) = true) (ρ : Reg → α) :
    HasValue (contents registerOf ρ) e :=
  hasValue_of_isEmittable (fun x hx => by simpa [contents] using hx) emittable

/-- What is subtracted in place of a term may be asked for if the term may. -/
theorem Admissible.subtrahend {t d : Expr α} (hd : subtrahend? t = some d)
    (admissible : Admissible registerOf first readable t) : Admissible registerOf first readable d := by
  refine ⟨(hereditary_hasIntegralPowers.subtrahend hd).mpr admissible.1, fun x hx => admissible.2 x ?_⟩
  rw [← Bool.not_eq_false] at *
  exact fun absent => hx (((hereditary_dependsOn _).subtrahend hd).mpr absent)

/-- A sum is emitted term by term; a term with a negative coefficient is subtracted. -/
theorem sum_right (h : Right registerOf first readable past α n)
    (ts : List (Expr α)) (total : Option Reg) (size : 2 * sizeList ts + 1 < n + 1)
    (admissible : ∀ t ∈ ts, Admissible registerOf first readable t)
    (sound : Sound registerOf first readable past s)
    (inUse : ∀ a ∈ total, s.InUse first readable a) :
    Yields (sum registerOf total ts) s (∀ t ∈ ts, t.isEmittable (bound registerOf) = true)
      fun r s' => Computes registerOf first readable past s s' r
        (fun ρ => total.elim 0 ρ + (ts.map (value (contents registerOf ρ))).sum) ∧
        ∀ a ∈ total, a ∈ s.varying → r ∈ s'.varying := by
  rw [sum.eq_def]
  cases ts with
  | nil =>
    dsimp only
    cases total with
    | some a =>
      refine ⟨fun _ hf => absurd hf List.not_mem_nil, ⟨sound, Extends.refl s, inUse a rfl, ?_⟩, ?_⟩
      · intro ρ _
        simp
      · rintro _ ⟨⟩ hv
        exact hv
    | none =>
      refine (constant_yields sound 0).mono (by simp) fun r s' _ hr => ⟨?_, by simp⟩
      exact Computes.trans (Extends.refl s) hr fun ρ _ => by simp
  | cons t ts =>
    obtain ⟨ht, hts⟩ := List.forall_mem_cons.mp admissible
    have positive := size_pos t
    rw [sizeList] at size
    dsimp only
    rw [List.forall_mem_cons]
    split
    · next d hd =>
      have emittable := (hereditary_isEmittable (α := α) (bound registerOf)).subtrahend hd
      have smaller := size_of_subtrahend? hd
      rw [← emittable, ← true_and (∀ t ∈ ts, t.isEmittable (bound registerOf) = true)]
      refine (h.expr d (by omega) (ht.subtrahend hd) s sound).bind fun r s₁ he hr => ?_
      have opposite (ρ : Reg → α) := value_subtrahend hd (hasValue (emittable.mp he) ρ)
      cases total with
      | none =>
        refine (take_yields (o := .neg r) inUse hr rfl fun ρ value_d => ?_).bind fun y s₂ _ taken =>
          sum_step h (by omega) hts taken.1 taken.2
        simp [Operation.value, opposite, value_d]
      | some a =>
        refine (take_yields (o := .sub a r) inUse hr rfl fun ρ value_d => ?_).bind fun y s₂ _ taken =>
          sum_step h (by omega) hts taken.1 taken.2
        simp [Operation.value, opposite, value_d, sub_eq_add_neg]
    · refine (h.expr t (by omega) ht s sound).bind fun r s₁ _ hr => ?_
      cases total with
      | none =>
        refine sum_step h (by omega) hts (Computes.trans (Extends.refl s) hr fun ρ _ => ?_) (by simp)
        exact zero_add _
      | some a =>
        rw [← true_and (∀ t ∈ ts, t.isEmittable (bound registerOf) = true)]
        refine (take_yields (o := .add a r) inUse hr rfl fun ρ value_t => ?_).bind fun y s₂ _ taken =>
          sum_step h (by omega) hts taken.1 taken.2
        exact congrArg (ρ a + ·) value_t

/-! ## Expressions -/

theorem remember_yields {s₁ : Emission α} {e : Expr α} {r : Reg}
    (h : Provides registerOf first readable past s e r s₁)
    (emittable : e.isEmittable (bound registerOf) = true) :
    Yields (remember e r) s₁ True (Provides registerOf first readable past s e) := by
  have step := h.sound.remember h.inUse emittable h.carries
  exact ⟨trivial, Computes.trans h.extends_ step fun _ _ => rfl⟩

/-- An operation on two registers that were computed one after the other. -/
theorem pair_yields {s₁ s₂ : Emission α} {x y : Reg} {f g k : (Reg → α) → α} {o : Operation}
    (hx : Computes registerOf first readable past s s₁ x f) (hy : Computes registerOf first readable past s₁ s₂ y g)
    (operands : o.operands = [x, y]) (meaning : ∀ ρ, f ρ = ρ x → g ρ = ρ y → k ρ = o.value ρ) :
    Yields (operation o) s₂ True fun z s₃ => Computes registerOf first readable past s s₃ z k := by
  refine (applied_yields (hx.extends_.trans hy.extends_) hy.sound ?_ fun ρ values => ?_).mono Iff.rfl
    fun z s₃ _ hz => hz.1
  · simp [operands, hy.extends_.inUse hx.inUse, hy.inUse]
  · rw [operands] at values
    exact meaning ρ (values x (by simp) _ (hy.extends_.carries hx.inUse.1 hx.carries))
      (values y (by simp) _ hy.carries)

/-- One half is no integer. -/
theorem intCast_ne_half (k : Int) : (k : α) ≠ Scalar.ofDecimal 5 (-1) := by
  intro h
  have half : (Scalar.ofDecimal 5 (-1) : α) = ((5 : Nat) : α) * 10 ^ (-1 : Int) :=
    ExactScalar.ofDecimal_eq 5 (-1)
  rw [half, zpow_neg_one, ← div_eq_mul_inv, eq_div_iff (by norm_num)] at h
  have : k * 10 = 5 := by exact_mod_cast h
  omega

/-- A power with an integral exponent is computed by multiplication or by the power of the arithmetic. -/
theorem power_yields {s₁ : Emission α} {b : Expr α} {n : α} {r : Reg} {exponent : Emit α Reg}
    (integral : Scalar.isIntegral n = true)
    (hb : b.isEmittable (bound registerOf) = true)
    (hr : Provides registerOf first readable past s b r s₁)
    (he : Yields exponent s₁ True (Provides registerOf first readable past s₁ (num n))) :
    Yields (power r (num n) exponent) s₁ True
      (Provides registerOf first readable past s (.power b (num n))) := by
  have value_power (ρ : Reg → α) : value (contents registerOf ρ) (.power b (num n)) =
      value (contents registerOf ρ) b ^ Scalar.toInt n :=
    value_of_evaluate (evaluate_power (hasValue hb ρ) integral)
  unfold power
  cases small : smallExponent? (num n) with
  | some k =>
    have hk : Scalar.toInt n = k := by
      unfold smallExponent? at small
      dsimp only at small
      split at small
      · exact Option.some.inj small
      · cases small
    refine (applied_yields (o := .powInt r k) hr.extends_ hr.sound ?_ fun ρ values => ?_).mono Iff.rfl
      fun x s₂ _ hx => hx.1
    · simp [Operation.operands, hr.inUse]
    · have value_b := values r (by simp [Operation.operands]) _ hr.carries
      rw [value_power, value_b, hk]
      exact (Scalar.powInt_eq _ _).symm
  | none =>
    dsimp only
    split
    · next half =>
      obtain ⟨k, rfl⟩ := Scalar.isIntegral_iff.mp integral
      exact absurd (ExactScalar.eq_iff.mp half) (intCast_ne_half k)
    rw [← true_and True]
    refine he.bind fun y s₂ _ hy => pair_yields (o := .pow r y) hr hy rfl fun ρ value_b value_n => ?_
    rw [value_num] at value_n
    rw [value_power, value_b, Operation.value, ← value_n, Scalar.pow_eq_zpow integral]

/-- An operation on the values of two expressions. -/
theorem binary_yields (h : Right registerOf first readable past α n) {a b e : Expr α}
    (operation_ : Reg → Reg → Operation) (operands : ∀ x y, (operation_ x y).operands = [x, y])
    (size_a : 2 * a.size < n) (size_b : 2 * b.size < n)
    (ha : Admissible registerOf first readable a) (hb : Admissible registerOf first readable b)
    (sound : Sound registerOf first readable past s)
    (emittable : e.isEmittable (bound registerOf) = true ↔
      a.isEmittable (bound registerOf) = true ∧ b.isEmittable (bound registerOf) = true)
    (meaning : ∀ (ρ : Reg → α) x y, e.isEmittable (bound registerOf) = true →
      value (contents registerOf ρ) a = ρ x → value (contents registerOf ρ) b = ρ y →
      value (contents registerOf ρ) e = (operation_ x y).value ρ) :
    Yields (do
      let a' ← expr registerOf a
      let b' ← expr registerOf b
      remember e (← operation (operation_ a' b'))) s (e.isEmittable (bound registerOf) = true)
      (Provides registerOf first readable past s e) := by
  refine Yields.mono ((h.expr a size_a ha s sound).bind fun x s₁ ea hx =>
    (h.expr b size_b hb s₁ hx.sound).bind fun y s₂ eb hy =>
      (pair_yields (o := operation_ x y) hx hy (operands x y) fun ρ value_a value_b => ?_).bind fun z s₃ _ hz =>
        remember_yields hz (emittable.mpr ⟨ea, eb⟩)) ?_ fun _ _ _ hr => hr
  · exact meaning ρ x y (emittable.mpr ⟨ea, eb⟩) value_a value_b
  · rw [emittable, and_true, and_true]

/-- The dividends and divisors of a product may be asked for if the product may. -/
theorem Admissible.quotient {fs : List (Expr α)} (admissible : Admissible registerOf first readable (product fs)) :
    (∀ d ∈ dividends fs, Admissible registerOf first readable d) ∧
      ∀ d ∈ divisors fs, Admissible registerOf first readable d := by
  have powers := hasIntegralPowersList_iff.mp admissible.1
  obtain ⟨dividend, divisor⟩ := (forall_factors_iff hereditary_hasIntegralPowers powers).mp powers
  have absent (x : Symbol) (absent : (product fs).contains x = false) :=
    (forall_factors_iff (hereditary_dependsOn (· == x)) powers).mp (dependsOnList_eq_false_iff.mp absent)
  refine ⟨fun d hd => ⟨dividend d hd, fun x hx => admissible.2 x ?_⟩,
    fun d hd => ⟨divisor d hd, fun x hx => admissible.2 x ?_⟩⟩
  all_goals
    rw [← Bool.not_eq_false] at *
    intro none
  · exact hx ((absent x none).1 d hd)
  · exact hx ((absent x none).2 d hd)

/-- A product is emitted as the quotient of its dividends and divisors. -/
theorem product_yields (h : Right registerOf first readable past α n) {fs : List (Expr α)}
    (size : 2 * (product fs).size < n + 1)
    (admissible : Admissible registerOf first readable (product fs))
    (sound : Sound registerOf first readable past s) :
    Yields (do
      let dividend ← chain registerOf none (dividends fs)
      if (divisors fs).isEmpty then remember (product fs) dividend
      else
        let divisor ← chain registerOf none (divisors fs)
        remember (product fs) (← operation (.div dividend divisor))) s
      ((product fs).isEmittable (bound registerOf) = true)
      (Provides registerOf first readable past s (product fs)) := by
  have powers := hasIntegralPowersList_iff.mp admissible.1
  have emittable : (product fs).isEmittable (bound registerOf) = true ↔
      (∀ f ∈ dividends fs, f.isEmittable (bound registerOf) = true) ∧
        ∀ d ∈ divisors fs, d.isEmittable (bound registerOf) = true :=
    isEmittableList_iff.trans (forall_factors_iff (hereditary_isEmittable (bound registerOf)) powers)
  obtain ⟨admissible_dividend, admissible_divisor⟩ := admissible.quotient
  have size_dividends := sizeList_dividends_le fs
  have size_divisors := sizeList_divisors_le fs
  rw [Expr.size] at size
  have quotient (e : (product fs).isEmittable (bound registerOf) = true) (ρ : Reg → α) :
      value (contents registerOf ρ) (product fs) =
        ((dividends fs).map (value (contents registerOf ρ))).prod /
          ((divisors fs).map (value (contents registerOf ρ))).prod := by
    rw [value_of_evaluate (evaluate_product (hasValue_product.mp (hasValue e ρ)))]
    exact value_quotient powers fun d hd => hasValue ((emittable.mp e).2 d hd) ρ
  rw [emittable]
  refine (h.chain (dividends fs) none (by omega) admissible_dividend s sound (by simp)).bind
    fun x s₁ ex chained => ?_
  have hx := chained.1
  split
  · next none_ =>
    have vacuous : ∀ d ∈ divisors fs, d.isEmittable (bound registerOf) = true := by
      rw [List.isEmpty_iff.mp none_]
      exact fun d hd => absurd hd List.not_mem_nil
    have e := emittable.mpr ⟨ex, vacuous⟩
    refine (remember_yields (Computes.trans (Extends.refl s) hx fun ρ _ => ?_) e).mono
      (iff_of_true trivial vacuous) fun _ _ _ hr => hr
    show value _ _ = 1 * _
    rw [quotient e ρ, List.isEmpty_iff.mp none_, List.map_nil, List.prod_nil, div_one, one_mul]
  · refine Yields.mono ((h.chain (divisors fs) none (by omega) admissible_divisor s₁ hx.sound
      (by simp)).bind fun y s₂ ey divided =>
        (pair_yields (o := .div x y) hx divided.1 rfl fun ρ value_x value_y => ?_).bind fun z s₃ _ hz =>
          remember_yields hz (emittable.mpr ⟨ex, ey⟩)) ?_ fun _ _ _ hr => hr
    · rw [quotient (emittable.mpr ⟨ex, ey⟩) ρ, Operation.value, ← value_x, ← value_y]
      simp
    · rw [and_true, and_true]

/-- A choice is emitted with both of its branches. -/
theorem select_yields (h : Right registerOf first readable past α n) {c a b : Expr α}
    (size : 2 * (select c a b).size < n + 1)
    (admissible : Admissible registerOf first readable (select c a b))
    (sound : Sound registerOf first readable past s) :
    Yields (do
      let c' ← expr registerOf c
      let a' ← expr registerOf a
      let b' ← expr registerOf b
      remember (select c a b) (← operation (.select c' a' b'))) s
      ((select c a b).isEmittable (bound registerOf) = true)
      (Provides registerOf first readable past s (select c a b)) := by
  obtain ⟨pc, pab⟩ := Bool.and_eq_true_iff.mp admissible.1
  obtain ⟨pa, pb⟩ := Bool.and_eq_true_iff.mp pab
  have symbols (x : Symbol) (hx : c.contains x = true ∨ a.contains x = true ∨ b.contains x = true) :
      (select c a b).contains x = true := by
    show (c.contains x || (a.contains x || b.contains x)) = true
    simpa using hx
  rw [Expr.size] at size
  have emittable : (select c a b).isEmittable (bound registerOf) = true ↔
      c.isEmittable (bound registerOf) = true ∧ a.isEmittable (bound registerOf) = true ∧
        b.isEmittable (bound registerOf) = true := by
    rw [isEmittable, Bool.and_eq_true, Bool.and_eq_true]
  refine Yields.mono
    ((h.expr c (by omega) ⟨pc, fun x hx => admissible.2 x (symbols x (.inl hx))⟩ s sound).bind
      fun z s₁ ec hz =>
    (h.expr a (by omega) ⟨pa, fun x hx => admissible.2 x (symbols x (.inr (.inl hx)))⟩ s₁
      hz.sound).bind fun x s₂ ea hx =>
    (h.expr b (by omega) ⟨pb, fun x hx => admissible.2 x (symbols x (.inr (.inr hx)))⟩ s₂
      hx.sound).bind fun y s₃ eb hy =>
    (applied_yields (o := .select z x y) (hz.extends_.trans (hx.extends_.trans hy.extends_)) hy.sound ?_
      fun ρ values => ?_).bind fun w s₄ _ hw => remember_yields hw.1 (emittable.mpr ⟨ec, ea, eb⟩)) ?_
        fun _ _ _ hr => hr
  · simp [Operation.operands, hy.extends_.inUse (hx.extends_.inUse hz.inUse),
      hy.extends_.inUse hx.inUse, hy.inUse]
  · have value_c := values z (by simp [Operation.operands]) _
      ((hx.extends_.trans hy.extends_).carries hz.inUse.1 hz.carries)
    have value_a := values x (by simp [Operation.operands]) _ (hy.extends_.carries hx.inUse.1 hx.carries)
    have value_b := values y (by simp [Operation.operands]) _ hy.carries
    have chosen := evaluate_select (a := a) (b := b) (hasValue ec ρ)
    rw [Operation.value, ← value_c, ← value_a, ← value_b]
    show (evaluate _ _).getD 0 = _
    rw [chosen]
    split <;> rfl
  · rw [emittable, and_true, and_true]

/-- A call is emitted if it has as many arguments as its function takes. -/
theorem call_yields (h : Right registerOf first readable past α n) {f : Builtin} {args : List (Expr α)}
    (size : 2 * (call f args).size < n + 1)
    (admissible : Admissible registerOf first readable (call f args))
    (sound : Sound registerOf first readable past s) :
    Yields (if args.length ≠ f.arity then throw (.arityMismatch f.name f.arity args.length)
      else match args with
        | [a] => do
          remember (.call f [a]) (← operation (.unary f (← expr registerOf a)))
        | [a, b] => do
          let a' ← expr registerOf a
          let b' ← expr registerOf b
          remember (.call f [a, b]) (← operation (.binary f a' b'))
        | _ => throw (.unsupportedFunction f.name)) s
      ((call f args).isEmittable (bound registerOf) = true)
      (Provides registerOf first readable past s (call f args)) := by
  have arguments : ∀ a ∈ args, Admissible registerOf first readable a :=
    Admissible.mem (hasIntegralPowersList_iff.mp admissible.1) admissible.2
  rw [Expr.size] at size
  split
  · next wrong =>
    refine Yields.throw _ fun e => wrong ?_
    exact eq_of_beq (Bool.and_eq_true_iff.mp e).1
  next right =>
  have arity := not_not.mp right
  rcases args with _ | ⟨a, _ | ⟨b, _ | ⟨_, _⟩⟩⟩
  · cases f <;> cases arity
  · rw [sizeList] at size
    have emittable : (call f [a]).isEmittable (bound registerOf) = true ↔
        a.isEmittable (bound registerOf) = true := by
      rw [isEmittable, isEmittableList, isEmittableList, Bool.and_true, arity]
      simp
    refine Yields.mono ((h.expr a (by omega) (arguments a List.mem_cons_self) s sound).bind
      fun x s₁ ea hx => (applied_yields (o := .unary f x) hx.extends_ hx.sound ?_ fun ρ values => ?_).bind
        fun z s₂ _ hz => remember_yields hz.1 (emittable.mpr ea)) ?_ fun _ _ _ hr => hr
    · simp [Operation.operands, hx.inUse]
    · have value_a := values x (by simp [Operation.operands]) _ hx.carries
      refine value_of_evaluate ((evaluate_call fun _ ha => ?_).trans ?_)
      · rw [List.mem_singleton.mp ha]
        exact hasValue ea ρ
      · rw [Operation.value, ← value_a, List.map_singleton]
        simp [Scalar.applyBuiltin, ← arity]
    · rw [emittable, and_true, and_true]
  · rw [sizeList, sizeList] at size
    have emittable : (call f [a, b]).isEmittable (bound registerOf) = true ↔
        a.isEmittable (bound registerOf) = true ∧ b.isEmittable (bound registerOf) = true := by
      rw [isEmittable, isEmittableList, isEmittableList, isEmittableList, Bool.and_true, arity]
      simp
    refine binary_yields h (.binary f) (fun _ _ => rfl) (by omega) (by omega)
      (arguments a List.mem_cons_self) (arguments b (List.mem_cons_of_mem _ List.mem_cons_self))
      sound emittable fun ρ x y e value_a value_b => ?_
    obtain ⟨ea, eb⟩ := emittable.mp e
    refine value_of_evaluate ((evaluate_call fun _ ha => ?_).trans ?_)
    · rcases List.mem_cons.mp ha with rfl | ha
      · exact hasValue ea ρ
      · rw [List.mem_singleton.mp ha]
        exact hasValue eb ρ
    · rw [Operation.value, ← value_a, ← value_b, List.map_cons, List.map_singleton]
      simp [Scalar.applyBuiltin, ← arity]
  · cases f <;> simp [Builtin.arity] at arity

/-- An expression is emitted by its outermost node, unless it is remembered. -/
theorem expr_right (h : Right registerOf first readable past α n) (e : Expr α)
    (size : 2 * e.size < n + 1) (admissible : Admissible registerOf first readable e)
    (sound : Sound registerOf first readable past s) :
    Yields (expr registerOf e) s (e.isEmittable (bound registerOf) = true)
      (Provides registerOf first readable past s e) := by
  rw [expr.eq_def]
  refine cached_yields sound ?_
  cases e with
  | num v => exact (constant_yields sound v).mono (iff_of_true trivial rfl) fun _ _ _ hr => hr
  | sym x =>
    dsimp only
    split
    · next r hr =>
      obtain ⟨lt, read⟩ := admissible.2 x (beq_self_eq_true x) r hr
      refine ⟨by rw [isEmittable, bound, hr]; rfl, sound, Extends.refl s,
        ⟨Nat.lt_of_lt_of_le lt sound.first_le, .inr read⟩, fun ρ _ => ?_⟩
      simp [value, evaluate, contents, hr]
    · next hr => exact Yields.throw _ fun e => by simp [isEmittable, bound, hr] at e
  | sum ts =>
    have terms : ∀ t ∈ ts, Admissible registerOf first readable t :=
      Admissible.mem (hasIntegralPowersList_iff.mp admissible.1) admissible.2
    rw [Expr.size] at size
    refine Yields.mono ((h.sum ts none (by omega) terms s sound (by simp)).bind
      fun x s₁ e summed => remember_yields (e := .sum ts)
        (Computes.trans (Extends.refl s) summed.1 fun ρ _ => ?_) (isEmittableList_iff.mpr e))
      ((and_true _).to_iff.trans isEmittableList_iff.symm) fun _ _ _ hr => hr
    rw [value_of_evaluate (evaluate_sum fun t ht => hasValue (e t ht) ρ)]
    exact (zero_add _).symm
  | product fs => exact product_yields h size admissible sound
  | power b e =>
    obtain ⟨n, rfl, integral, powers⟩ : ∃ n, e = num n ∧ Scalar.isIntegral n = true ∧
        hasIntegralPowers b = true := by
      obtain ⟨hb, -, integral⟩ := (hereditary_hasIntegralPowers.power b e).mp admissible.1
      obtain ⟨n, rfl, hn⟩ := integral trivial
      exact ⟨n, rfl, hn, hb⟩
    have base : Admissible registerOf first readable b :=
      ⟨powers, fun x hx => admissible.2 x (by
        show (b.contains x || _) = true
        rw [hx, Bool.true_or])⟩
    rw [Expr.size] at size
    have positive := size_pos b
    have emittable : (Expr.power b (num n)).isEmittable (bound registerOf) = true ↔
        b.isEmittable (bound registerOf) = true := by
      rw [isEmittable, isEmittable, Bool.and_true]
    refine Yields.mono ((h.expr b (by omega) base s sound).bind fun r s₁ eb hr =>
      (power_yields integral eb hr ?_).bind fun x s₂ _ hx =>
        remember_yields hx (emittable.mpr eb)) ?_ fun _ _ _ hr => hr
    · refine (h.expr (num n) (by omega) ⟨rfl, fun x hx => ?_⟩ s₁ hr.sound).mono
        (iff_of_true rfl trivial) fun _ _ _ hr => hr
      cases hx
    · rw [emittable, and_true, and_true]
  | call f args => exact call_yields h size admissible sound
  | compare c a b =>
    obtain ⟨pa, pb⟩ := Bool.and_eq_true_iff.mp admissible.1
    have symbols (x : Symbol) (hx : a.contains x = true ∨ b.contains x = true) :
        (compare c a b).contains x = true := by
      show (a.contains x || b.contains x) = true
      simpa using hx
    rw [Expr.size] at size
    refine binary_yields h (.compare c) (fun _ _ => rfl) (by omega) (by omega)
      ⟨pa, fun x hx => admissible.2 x (symbols x (.inl hx))⟩
      ⟨pb, fun x hx => admissible.2 x (symbols x (.inr hx))⟩ sound (by simp [isEmittable])
      fun ρ x y e value_a value_b => ?_
    obtain ⟨ea, eb⟩ := Bool.and_eq_true_iff.mp e
    rw [Operation.value, ← value_a, ← value_b]
    exact value_of_evaluate (evaluate_compare (hasValue ea ρ) (hasValue eb ρ))
  | select c a b => exact select_yields h size admissible sound
  | apply f args => exact Yields.throw _ fun e => by cases e
  | derivative x t => exact Yields.throw _ fun e => by cases e
  | integral x t => exact Yields.throw _ fun e => by cases e

/-- Emission is right for all sizes. -/
theorem right (n : Nat) : Right registerOf first readable past α n := by
  induction n with
  | zero =>
    exact ⟨fun _ h => absurd h (Nat.not_lt_zero _), fun _ _ h => absurd h (Nat.not_lt_zero _),
      fun _ _ h => absurd h (Nat.not_lt_zero _)⟩
  | succ n ih =>
    exact ⟨fun e size admissible s sound => expr_right ih e size admissible sound,
      fun ts total size admissible s sound inUse => sum_right ih ts total size admissible sound inUse,
      fun fs total size admissible s sound inUse =>
        chain_right ih fs total size admissible sound inUse⟩

/-- Emission of an expression succeeds exactly if code can be emitted for it, and then the register that is
returned carries its value. -/
theorem expr_yields {e : Expr α} (admissible : Admissible registerOf first readable e)
    (sound : Sound registerOf first readable past s) :
    Yields (expr registerOf e) s (e.isEmittable (bound registerOf) = true)
      (Provides registerOf first readable past s e) :=
  (right (2 * e.size + 1)).expr e (Nat.lt_succ_self _) admissible s sound

end

end Emit

end AnalogCircuit
