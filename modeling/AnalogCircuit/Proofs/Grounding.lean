import AnalogCircuit.Proofs.Bracket
/-!
# Every operand has been written before

Code is grounded on some registers if each instruction reads only these and what earlier instructions have written.
Two register files that agree on the ground then agree on all that is written, whatever else they hold: temporaries
of an earlier sample are never read, not even by a loop that ends before its body has run once.
-/

namespace AnalogCircuit

variable {α : Type} [Scalar α]

/-! ## Agreement -/

/-- Two register files of the same size that hold the same in some registers. -/
structure AgreeOn (known : Reg → Prop) (rs rs' : Registers α) : Prop where
  size : rs.size = rs'.size
  value : ∀ r, known r → rs.value r = rs'.value r

/-- The register is written by one of the instructions. -/
def Written (is : List Instruction) (r : Reg) : Prop := ∃ i ∈ is, i.target = r

section

variable {known known' : Reg → Prop} {rs rs' : Registers α} {is js : List Instruction}

namespace AgreeOn

theorem mono (h : AgreeOn known rs rs') (le : ∀ r, known' r → known r) : AgreeOn known' rs rs' :=
  ⟨h.size, fun r hr => h.value r (le r hr)⟩

/-- A register that is written with the same value in both is known from then on. -/
theorem write (h : AgreeOn known rs rs') (r : Reg) {x y : α} (same : x = y) :
    AgreeOn (fun r' => known r' ∨ r' = r) (rs.write r x) (rs'.write r y) := by
  refine ⟨by rw [Registers.size_write, Registers.size_write, h.size], fun r' hr => ?_⟩
  subst same
  by_cases other : r = r'
  · subst other
    unfold Registers.value Registers.write
    rw [Array.getD_eq_getD_getElem?, Array.getD_eq_getD_getElem?, Array.getElem?_setIfInBounds_self,
      Array.getElem?_setIfInBounds_self, h.size]
  · rw [Registers.value_write_of_ne other, Registers.value_write_of_ne other]
    exact h.value r' (hr.resolve_right (Ne.symm other))

/-- Values that are the same in both are written one after the other. -/
theorem foldl_write {β : Type} (register : β → Reg) (content : Registers α → β → α) (bs : List β)
    (h : AgreeOn known rs rs')
    (same : ∀ b ∈ bs, ∀ rs rs' : Registers α, AgreeOn known rs rs' → content rs b = content rs' b) :
    AgreeOn known (bs.foldl (fun rs b => rs.write (register b) (content rs b)) rs)
      (bs.foldl (fun rs b => rs.write (register b) (content rs b)) rs') := by
  induction bs generalizing rs rs' with
  | nil => exact h
  | cons b bs ih =>
    obtain ⟨hb, hbs⟩ := List.forall_mem_cons.mp same
    exact ih ((h.write (register b) (hb rs rs' h)).mono fun r hr => .inl hr) hbs

end AgreeOn

/-! ## Straight code -/

/-- Every instruction reads known registers and what has been written before. -/
def Grounded (known : Reg → Prop) : List Instruction → Prop
  | [] => True
  | i :: is => (∀ r ∈ i.operation.operands, known r) ∧ Grounded (fun r => known r ∨ r = i.target) is

theorem Grounded.mono (h : Grounded known is) (le : ∀ r, known r → known' r) : Grounded known' is := by
  induction is generalizing known known' with
  | nil => trivial
  | cons i is ih => exact ⟨fun r hr => le r (h.1 r hr), ih h.2 fun r hr => hr.imp_left (le r)⟩

/-- What is appended may read all that was written. -/
theorem Grounded.append (h : Grounded known is) (h' : Grounded (fun r => known r ∨ Written is r) js) :
    Grounded known (is ++ js) := by
  induction is generalizing known with
  | nil => exact h'.mono fun r hr => hr.elim id fun written => absurd written (by simp [Written])
  | cons i is ih =>
    refine ⟨h.1, ih h.2 (h'.mono fun r hr => ?_)⟩
    rcases hr with hr | ⟨j, hj, same⟩
    · exact .inl (.inl hr)
    · rcases List.mem_cons.mp hj with rfl | hj
      · exact .inl (.inr same.symm)
      · exact .inr ⟨j, hj, same⟩

theorem Grounded.of_append (h : Grounded known (is ++ js)) :
    Grounded known is ∧ Grounded (fun r => known r ∨ Written is r) js := by
  induction is generalizing known with
  | nil => exact ⟨trivial, h.mono fun r hr => .inl hr⟩
  | cons i is ih =>
    obtain ⟨front, rest⟩ := ih h.2
    refine ⟨⟨h.1, front⟩, rest.mono fun r hr => ?_⟩
    rcases hr with (hr | hr) | ⟨j, hj, same⟩
    · exact .inl hr
    · exact .inr ⟨i, List.mem_cons_self, hr.symm⟩
    · exact .inr ⟨j, List.mem_cons_of_mem _ hj, same⟩

/-- Grounded code makes all that it writes agree. -/
theorem AgreeOn.executeAll (h : AgreeOn known rs rs') (grounded : Grounded known is) :
    AgreeOn (fun r => known r ∨ Written is r) (executeAll is rs) (executeAll is rs') := by
  induction is generalizing known rs rs' with
  | nil => exact h.mono fun r hr => hr.elim id fun written => absurd written (by simp [Written])
  | cons i is ih =>
    have step := h.write i.target (Operation.value_congr fun r hr => h.value r (grounded.1 r hr))
    refine (ih step grounded.2).mono fun r hr => ?_
    rcases hr with hr | ⟨j, hj, same⟩
    · exact .inl (.inl hr)
    · rcases List.mem_cons.mp hj with rfl | hj
      · exact .inl (.inr same.symm)
      · exact .inr ⟨j, hj, same⟩

/-! ## Loops -/

/-- A loop reads known registers and what its body has written. -/
structure Loop.Grounded (known : Reg → Prop) (l : Loop) : Prop where
  unknowns : ∀ x ∈ l.unknowns, known x.1 ∧ known x.2
  body : AnalogCircuit.Grounded known l.body
  residuals : ∀ r ∈ l.residuals, known r ∨ Written l.body r
  jacobian : ∀ x ∈ l.jacobian, known x.2.2 ∨ Written l.body x.2.2

variable {l : Loop}

/-- After the same pass the same corrections are found. -/
theorem Loop.Grounded.corrections?_eq (grounded : l.Grounded known)
    (h : AgreeOn (fun r => known r ∨ Written l.body r) rs rs') :
    l.corrections? rs = l.corrections? rs' := by
  have residuals : l.residuals.map rs.value = l.residuals.map rs'.value :=
    List.map_congr_left fun r hr => h.value r (grounded.residuals r hr)
  have entries : l.entries rs = l.entries rs' := by
    refine congrArg Array.toList (List.foldl_ext _ _ _ fun a x hx => ?_)
    exact congrArg (a.setIfInBounds _) (h.value _ (grounded.jacobian x hx))
  unfold corrections?
  rw [residuals, entries]

/-- Iteration preserves agreement, however many passes there are. -/
theorem AgreeOn.iterate (grounded : l.Grounded known) (tolerance : α) (budget : Nat)
    (h : AgreeOn known rs rs') :
    AgreeOn known (l.iterate tolerance budget rs) (l.iterate tolerance budget rs') := by
  induction budget generalizing rs rs' with
  | zero => exact h
  | succ budget ih =>
    have pass := h.executeAll grounded.body
    have kept := pass.mono fun r hr => .inl hr
    unfold Loop.iterate
    dsimp only
    rw [grounded.corrections?_eq pass]
    split
    · exact kept
    next corrections _ =>
    have corrected : AgreeOn known (l.correct corrections (AnalogCircuit.executeAll l.body rs))
        (l.correct corrections (AnalogCircuit.executeAll l.body rs')) := by
      refine kept.foldl_write (fun b : (Reg × Reg) × α => b.1.1) (fun rs b => rs.value b.1.1 - b.2) _
        fun b hb rs rs' h => ?_
      rw [h.value _ (grounded.unknowns _ (List.of_mem_zip hb).1).1]
    split
    · exact corrected
    · exact ih corrected

theorem AgreeOn.loop (grounded : l.Grounded known) (tolerance : α) (budget : Nat)
    (h : AgreeOn known rs rs') :
    AgreeOn known ((Block.newton l).execute tolerance budget rs)
      ((Block.newton l).execute tolerance budget rs') := by
  refine AgreeOn.iterate grounded tolerance budget ?_
  exact h.foldl_write (fun b : Reg × Reg => b.1) (fun rs b => rs.value b.2) _
    fun b hb rs rs' h => h.value _ (grounded.unknowns b hb).2

/-! ## Blocks -/

/-- Every block reads known registers and what the straight blocks before it have written. -/
def GroundedBlocks (known : Reg → Prop) : List Block → Prop
  | [] => True
  | .straight is :: bs => Grounded known is ∧ GroundedBlocks (fun r => known r ∨ Written is r) bs
  | .newton l :: bs => l.Grounded known ∧ GroundedBlocks known bs

theorem Loop.Grounded.mono (h : l.Grounded known) (le : ∀ r, known r → known' r) : l.Grounded known' where
  unknowns x hx := ⟨le _ (h.unknowns x hx).1, le _ (h.unknowns x hx).2⟩
  body := h.body.mono le
  residuals r hr := (h.residuals r hr).imp_left (le r)
  jacobian x hx := (h.jacobian x hx).imp_left (le _)

theorem GroundedBlocks.mono {bs : List Block} (h : GroundedBlocks known bs)
    (le : ∀ r, known r → known' r) : GroundedBlocks known' bs := by
  induction bs generalizing known known' with
  | nil => trivial
  | cons b bs ih =>
    cases b with
    | straight is => exact ⟨h.1.mono le, ih h.2 fun r hr => hr.imp_left (le r)⟩
    | newton l => exact ⟨h.1.mono le, ih h.2 le⟩

theorem AgreeOn.foldl_execute {bs : List Block} (grounded : GroundedBlocks known bs) (tolerance : α)
    (budget : Nat) (h : AgreeOn known rs rs') :
    AgreeOn known (bs.foldl (fun rs b => b.execute tolerance budget rs) rs)
      (bs.foldl (fun rs b => b.execute tolerance budget rs) rs') := by
  induction bs generalizing known rs rs' with
  | nil => exact h
  | cons b bs ih =>
    cases b with
    | straight is => exact (ih grounded.2 (h.executeAll grounded.1)).mono fun r hr => .inl hr
    | newton l => exact ih grounded.2 (AgreeOn.loop grounded.1 tolerance budget h)

end

end AnalogCircuit
