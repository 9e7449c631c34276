import AnalogCircuit.Proofs.Founded
import AnalogCircuit.Proofs.Sequence
import AnalogCircuit.Proofs.Workspace
/-!
# Compiled programs are grounded

The program of a law reads nothing but fixed registers, constants and what it has written itself, and it writes
neither a constant nor a fixed register other than that of an unknown. So two register files that agree on the fixed
registers and the constants agree on them after every sample.
-/

namespace AnalogCircuit

variable {α : Type}

namespace Emission

variable {first : Reg} {assignable : Reg → Prop} {past : List Instruction} {s : Emission α}

/-! ## Loops, blocks and assignments -/

theorem founded_openLoop (first : Reg) (assignable : Reg → Prop) (regs : List Reg) :
    Founded first assignable [] ((start first : Emission α).openLoop regs) where
  first_le := Nat.le_refl _
  closed h := by cases h
  constants _ h := absurd h List.not_mem_nil
  outer _ h := absurd h List.not_mem_nil
  inner _ h := absurd h List.not_mem_nil
  outer_grounded := trivial
  inner_grounded := trivial
  computed _ h := absurd h List.not_mem_nil

/-- Behind a loop only that is remembered which the loop has not computed. -/
theorem Founded.closeLoop (h : Founded first assignable past s) :
    Founded first assignable past s.closeLoop.2 where
  first_le := h.first_le
  closed _ := rfl
  constants := h.constants
  outer := h.outer
  inner _ hi := absurd hi List.not_mem_nil
  outer_grounded := h.outer_grounded
  inner_grounded := trivial
  computed c hc := by
    obtain ⟨kept, unchanged⟩ := List.mem_filter.mp hc
    rw [Bool.not_eq_true', ← Bool.not_eq_true, List.contains_iff_mem] at unchanged
    rcases h.computed c kept with outside | ⟨i, hi, same⟩
    · exact .inl outside
    · exact absurd (same ▸ (h.inner i hi).2) unchanged

theorem Founded.flush (h : Founded first assignable past s) :
    Founded first assignable (past ++ s.pending) s.flush.2 := by
  have all : past ++ s.pending ++ s.flush.2.pending = past ++ s.pending := List.append_nil _
  have outside {r : Reg} (hr : s.Outside first past r) : s.flush.2.Outside first (past ++ s.pending) r := by
    unfold Outside
    rw [all]
    exact hr
  refine ⟨h.first_le, h.closed, h.constants, ?_, h.inner, ?_, ?_, ?_⟩
  · rw [all]; exact h.outer
  · rw [all]; exact h.outer_grounded
  · exact h.inner_grounded.mono fun _ => outside
  · exact fun c hc => (h.computed c hc).imp_left outside

/-- The value of an assignment is copied to a register that may be assigned. -/
theorem Founded.copy (h : Founded first assignable past s) (closed : s.body? = none) {target source : Reg}
    (fixed : target < first) (allowed : assignable target) (available : s.Available first past source) :
    Founded first assignable past (s.copy target source) := by
  unfold Emission.copy
  split
  · exact h
  have empty : s.inner = [] := by rw [Emission.inner, closed]; rfl
  have outside : s.Outside first past source := by
    rcases available with outside | ⟨i, hi, -⟩
    · exact outside
    · rw [empty] at hi
      exact absurd hi List.not_mem_nil
  have more {r : Reg} (hr : s.Outside first past r) :
      Outside first past { s with pending := s.pending ++ [⟨target, .copy source⟩] } r :=
    hr.mono (fun _ hc => hc) fun _ hi => List.mem_append_left _ hi
  refine ⟨h.first_le, h.closed, h.constants, ?_, h.inner, ?_, ?_, ?_⟩
  · rw [← List.append_assoc]
    exact List.forall_mem_append.mpr ⟨h.outer, List.forall_mem_singleton.mpr (.inl ⟨fixed, allowed⟩)⟩
  · rw [← List.append_assoc]
    exact h.outer_grounded.append ⟨List.forall_mem_singleton.mpr outside, trivial⟩
  · exact h.inner_grounded.mono fun _ => more
  · exact fun c hc => (h.computed c hc).imp_left more

end Emission

/-- The block writes the register. -/
def Block.Writes : Block → Reg → Prop
  | .straight is, r => Written is r
  | .newton l, r => Written l.body r ∨ ∃ x ∈ l.unknowns, x.1 = r

/-- The instructions of a block, if there are any. -/
def straightBlocks (is : List Instruction) : List Block := if is.isEmpty then [] else [.straight is]

theorem groundedBlocks_append {known : Reg → Prop} {is : List Instruction} {bs : List Block}
    (front : Grounded known is) (rest : GroundedBlocks (fun r => known r ∨ Written is r) bs) :
    GroundedBlocks known (straightBlocks is ++ bs) := by
  unfold straightBlocks
  split
  · next empty =>
    refine rest.mono fun r hr => hr.elim id fun written => ?_
    rw [List.isEmpty_iff.mp empty] at written
    obtain ⟨i, hi, -⟩ := written
    exact absurd hi List.not_mem_nil
  · exact ⟨front, rest⟩

theorem groundedBlocks_loops {known : Reg → Prop} {loops bs : List Block}
    (grounded : ∀ b ∈ loops, ∃ l, b = .newton l ∧ l.Grounded known) (rest : GroundedBlocks known bs) :
    GroundedBlocks known (loops ++ bs) := by
  induction loops with
  | nil => exact rest
  | cons b loops ih =>
    obtain ⟨⟨l, rfl, hl⟩, others⟩ := List.forall_mem_cons.mp grounded
    exact ⟨hl, ih others⟩

theorem mem_straightBlocks {is : List Instruction} {b : Block} (h : b ∈ straightBlocks is) :
    b = .straight is := by
  unfold straightBlocks at h
  split at h
  · exact absurd h List.not_mem_nil
  · exact List.mem_singleton.mp h

namespace Program

open Emission Emit

/-! ## The program of a law -/

/-- The registers of the unknowns. -/
def Assignable (law : UpdateLaw α) (r : Reg) : Prop :=
  ∃ i < law.unknowns.length, r = (layoutOf law).unknown i

section

variable [Scalar α] {law : UpdateLaw α} {past : List Instruction} {s s' : Emission α}

omit [Scalar α] in
theorem lt_of_placeOf? {u : Symbol} {i : Nat} (h : placeOf? law u = some i) : i < law.unknowns.length :=
  (List.getElem?_eq_some_iff.mp (getElem?_of_placeOf? h)).1

omit [Scalar α] in
theorem assignable_of_iterated {n : NewtonIteration α} {x : Reg × Reg} (h : x ∈ iteratedUnknowns law n) :
    Assignable law x.1 ∧ x.2 < (layoutOf law).size := by
  obtain ⟨i, hi, rfl⟩ := List.mem_map.mp h
  obtain ⟨u, -, hu⟩ := List.mem_filterMap.mp hi
  have inside := lt_of_placeOf? hu
  refine ⟨⟨i, inside, rfl⟩, Nat.lt_of_lt_of_le inside ?_⟩
  change (layoutOf law).unknowns ≤ (layoutOf law).size
  unfold Layout.size Layout.unknown
  exact Nat.le_add_left _ _

/-- What is known of the loop of an iteration. -/
structure LoopOf (law : UpdateLaw α) (n : NewtonIteration α) (past : List Instruction) (s : Emission α)
    (l : Loop) : Prop where
  grounded : l.Grounded fun r => s.Ground (layoutOf law).size r ∨ Written past r
  body : ∀ i ∈ l.body, s.Writable (layoutOf law).size (Assignable law) i.target
  unknowns : l.unknowns = iteratedUnknowns law n
  residuals : l.residuals.length = n.residuals.length

omit [Scalar α] in
theorem LoopOf.allocates {n : NewtonIteration α} {l : Loop} (h : LoopOf law n past s l)
    (later : Allocates s s') : LoopOf law n past s' l where
  grounded := h.grounded.mono fun _ hr => hr.imp_left (·.mono later.constants)
  body i hi := later.writable (h.body i hi)
  unknowns := h.unknowns
  residuals := h.residuals

/-- The blocks of an iteration: instructions in front of the loop, and the loop. -/
theorem newtonBlocks_grounded {n : NewtonIteration α} {blocks : List Block}
    (h : newtonBlocks law (registerOf law) n (.start (layoutOf law).size) = .ok (blocks, s)) :
    ∃ past l, Founded (layoutOf law).size (Assignable law) past s ∧ s.body? = none ∧ s.pending = [] ∧
      LoopOf law n past s l ∧ blocks = straightBlocks past ++ [.newton l] := by
  obtain ⟨residuals, jacobian, s₁, iterated, rfl, rfl⟩ := newtonBlocks_iterated h
  have founded := (founded_openLoop (layoutOf law).size (Assignable law) _).steps iterated.steps
  refine ⟨s₁.pending, _, founded.closeLoop.flush, rfl, rfl, ⟨⟨?_, ?_, ?_, ?_⟩, ?_, rfl, iterated.length⟩, rfl⟩
  · intro x hx
    obtain ⟨⟨i, hi, low⟩, previous⟩ := assignable_of_iterated hx
    exact ⟨.inl (.inl (low ▸ unknown_lt_size hi)), .inl (.inl previous)⟩
  · exact founded.inner_grounded
  · exact iterated.residuals
  · exact iterated.jacobian
  · exact fun i hi => (founded.inner i hi).1

/-- Assignments are emitted one after the other. -/
theorem forM_grounded {as : List (Assignment α)}
    (founded : Founded (layoutOf law).size (Assignable law) past s) (closed : s.body? = none)
    (h : as.forM (assign law (registerOf law)) s = .ok ((), s')) :
    Founded (layoutOf law).size (Assignable law) past s' ∧ Allocates s s' := by
  induction as generalizing s with
  | nil => cases h; exact ⟨founded, Allocates.refl _⟩
  | cons a as ih =>
    obtain ⟨_, s₁, h₁, h₂⟩ := bind_eq_ok h
    obtain ⟨r, s₂, steps, available, -, stored⟩ := assign_proceeds founded.computed h₁
    have founded₂ := founded.steps steps
    have ext := steps.extends_
    have closed₂ := closed_of_loop ext.loop closed
    obtain ⟨-, rfl⟩ | ⟨i, place, -, rfl⟩ := stored
    · obtain ⟨founded', later⟩ := ih founded₂ closed₂ h₂
      exact ⟨founded', ext.allocates.trans later⟩
    · have inside := lt_of_placeOf? place
      have copied := founded₂.copy closed₂ (unknown_lt_size inside) ⟨i, inside, rfl⟩ available
      have same : Allocates s₂ (s₂.copy ((layoutOf law).unknown i) r) ∧
          (s₂.copy ((layoutOf law).unknown i) r).body? = s₂.body? := by
        unfold Emission.copy
        split
        · exact ⟨Allocates.refl s₂, rfl⟩
        · exact ⟨⟨Nat.le_refl _, fun _ h => h, fun _ h => .inl h⟩, rfl⟩
      obtain ⟨founded', later⟩ := ih copied (same.2.trans closed₂) h₂
      exact ⟨founded', ext.allocates.trans (same.1.trans later)⟩

/-- The register is fixed or holds a constant. -/
def Ground (p : Program α) (r : Reg) : Prop := r < p.layout.size ∨ ∃ c ∈ p.constants, c.1 = r

/-- The register is that of an unknown, or a temporary. -/
def Changes (p : Program α) (r : Reg) : Prop :=
  (∃ i < p.layout.unknowns, r = p.layout.unknown i) ∨ p.layout.size ≤ r ∧ ∀ c ∈ p.constants, c.1 ≠ r

/-- The program reads what it knows or has written, and changes neither constants nor what it is given. -/
structure Disciplined (p : Program α) : Prop where
  grounded : GroundedBlocks p.Ground p.blocks
  writes : ∀ b ∈ p.blocks, ∀ r, b.Writes r → p.Changes r
  constants : ∀ c ∈ p.constants, p.layout.size ≤ c.1
  room : p.layout.size ≤ p.registers

/-- A loop of the program of a law is the one of its iteration. -/
structure LoopFrom (law : UpdateLaw α) (l : Loop) (n : NewtonIteration α) : Prop where
  newton : law.newton? = some n
  unknowns : l.unknowns = iteratedUnknowns law n
  residuals : l.residuals.length = n.residuals.length

/-- The blocks in front of the assignments: straight code, and the loop if there is one. -/
theorem loops_grounded {loops : List Block} (front : law.newton? = none ∧ loops = [] ∧
      s = .start (layoutOf law).size ∨ ∃ n, law.newton? = some n ∧
        newtonBlocks law (registerOf law) n (.start (layoutOf law).size) = .ok (loops, s)) :
    ∃ past newtons, Founded (layoutOf law).size (Assignable law) past s ∧ s.body? = none ∧
      s.pending = [] ∧ loops = straightBlocks past ++ newtons ∧
      ∀ b ∈ newtons, ∃ l n, b = .newton l ∧ law.newton? = some n ∧ LoopOf law n past s l := by
  rcases front with ⟨-, rfl, rfl⟩ | ⟨n, newton, front⟩
  · exact ⟨[], [], founded_start _ _, rfl, rfl, rfl, fun _ h => absurd h List.not_mem_nil⟩
  · obtain ⟨past, l, founded, closed, flushed, loop, blocks⟩ := newtonBlocks_grounded front
    exact ⟨past, [.newton l], founded, closed, flushed, blocks,
      List.forall_mem_singleton.mpr ⟨l, n, rfl, newton, loop⟩⟩

/-- Compiled programs are disciplined. -/
theorem disciplined_ofLaw {tolerance : α} {p : Program α} (h : ofLaw law tolerance = .ok p) :
    p.Disciplined ∧ ∀ l, .newton l ∈ p.blocks → ∃ n, LoopFrom law l n := by
  obtain ⟨loops, s, s', front, assigned, rfl⟩ := ofLaw_steps h
  obtain ⟨past, newtons, founded, closed, flushed, rfl, loop⟩ := loops_grounded front
  obtain ⟨founded', later⟩ := forM_grounded founded closed assigned
  obtain ⟨grounded, rest⟩ := founded'.outer_grounded.of_append
  have loop (b : Block) (hb : b ∈ newtons) :
      ∃ l n, b = .newton l ∧ law.newton? = some n ∧ LoopOf law n past s' l := by
    obtain ⟨l, n, same, newton, of⟩ := loop b hb
    exact ⟨l, n, same, newton, of.allocates later⟩
  have blocks : straightBlocks past ++ newtons ++ s'.flush.1 =
      straightBlocks past ++ (newtons ++ (straightBlocks s'.pending ++ [])) := by
    rw [List.append_nil, List.append_assoc]
    rfl
  have changes {r : Reg} (writable : s'.Writable (layoutOf law).size (Assignable law) r) :
      (∃ i < (layoutOf law).unknowns, r = (layoutOf law).unknown i) ∨
        (layoutOf law).size ≤ r ∧ ∀ c ∈ s'.constants, c.1 ≠ r :=
    writable.imp (·.2) fun h => ⟨h.1, h.2.2⟩
  have straight {is : List Instruction} (sub : ∀ i ∈ is, i ∈ past ++ s'.pending) {b : Block}
      (hb : b ∈ straightBlocks is) {r : Reg} (hr : b.Writes r) :
      s'.Writable (layoutOf law).size (Assignable law) r := by
    rw [mem_straightBlocks hb] at hr
    obtain ⟨i, hi, rfl⟩ := hr
    exact founded'.outer i (sub i hi)
  refine ⟨⟨?_, fun b hb r hr => changes ?_, fun c hc => (founded'.constants c hc).1, founded'.first_le⟩,
    fun l hl => ?_⟩
  · change GroundedBlocks (s'.Ground (layoutOf law).size) _
    rw [blocks]
    refine groundedBlocks_append grounded (groundedBlocks_loops (fun b hb => ?_)
      (groundedBlocks_append rest trivial))
    obtain ⟨l, n, same, -, of⟩ := loop b hb
    exact ⟨l, same, of.grounded⟩
  · rw [blocks, List.append_nil] at hb
    rcases List.mem_append.mp hb with hb | hb
    · exact straight (fun i hi => List.mem_append_left _ hi) hb hr
    rcases List.mem_append.mp hb with hb | hb
    · obtain ⟨l, n, rfl, -, of⟩ := loop b hb
      rcases hr with ⟨i, hi, rfl⟩ | ⟨x, hx, rfl⟩
      · exact of.body i hi
      · have assignable := (assignable_of_iterated (of.unknowns ▸ hx)).1
        obtain ⟨i, inside, low⟩ := assignable
        exact .inl ⟨low ▸ unknown_lt_size inside, i, inside, low⟩
    · exact straight (fun i hi => List.mem_append_right _ hi) hb hr
  · rw [blocks, List.append_nil] at hl
    rcases List.mem_append.mp hl with hl | hl
    · cases mem_straightBlocks hl
    rcases List.mem_append.mp hl with hl | hl
    · obtain ⟨l', n, same, newton, of⟩ := loop _ hl
      cases same
      exact ⟨n, newton, of.unknowns, of.residuals⟩
    · cases mem_straightBlocks hl

/-! ## Samples -/

theorem size_execute (tolerance : α) (budget : Nat) (b : Block) (rs : Registers α) :
    (b.execute tolerance budget rs).size = rs.size := by
  cases b with
  | straight is => exact size_executeAll is rs
  | newton l => exact size_looped (l.looped_execute tolerance budget rs)

/-- A block changes only what it writes. -/
theorem value_execute {b : Block} {r : Reg} (h : ¬b.Writes r) (tolerance : α) (budget : Nat)
    (rs : Registers α) : (b.execute tolerance budget rs).value r = rs.value r := by
  cases b with
  | straight is => exact value_executeAll_of_ne (fun i hi same => h ⟨i, hi, same⟩) rs
  | newton l =>
    refine value_looped (l.looped_execute tolerance budget rs) (fun i hi same => h (.inl ⟨i, hi, same⟩))
      fun inside => h (.inr ?_)
    obtain ⟨x, hx, same⟩ := List.mem_map.mp inside
    exact ⟨x, hx, same⟩

variable {p : Program α}

@[simp] theorem size_step (p : Program α) (budget : Nat) (rs : Registers α) :
    (p.step budget rs).size = rs.size := by
  unfold step
  generalize p.blocks = bs
  induction bs generalizing rs with
  | nil => rfl
  | cons b bs ih => exact (ih _).trans (size_execute ..)

/-- A sample leaves parameters, inputs, previous values and constants as they are. -/
theorem Disciplined.value_step (h : p.Disciplined) {r : Reg} (hr : ¬p.Changes r) (budget : Nat)
    (rs : Registers α) : (p.step budget rs).value r = rs.value r := by
  have unwritten : ∀ b ∈ p.blocks, ¬b.Writes r := fun b hb writes => hr (h.writes b hb r writes)
  unfold step
  generalize p.blocks = bs at unwritten
  induction bs generalizing rs with
  | nil => rfl
  | cons b bs ih =>
    obtain ⟨hb, hbs⟩ := List.forall_mem_cons.mp unwritten
    exact (ih _ hbs).trans (value_execute hb ..)

/-- Registers that agree on what is given and on the constants do so after a sample. -/
theorem Disciplined.agree_step (h : p.Disciplined) (budget : Nat) {rs rs' : Registers α}
    (agree : AgreeOn p.Ground rs rs') : AgreeOn p.Ground (p.step budget rs) (p.step budget rs') :=
  agree.foldl_execute h.grounded p.tolerance budget

end

end Program

/-! ## Square systems -/

variable [Scalar α] {law : UpdateLaw α}

/-- The iteration has a residual for every unknown, and all of them are unknowns of the law. -/
def UpdateLaw.Square (law : UpdateLaw α) : Prop :=
  ∀ n, law.newton? = some n →
    n.residuals.length = n.unknowns.length ∧ ∀ u ∈ n.unknowns, u ∈ law.unknowns

theorem UpdateLaw.square_ofSystem {system : System α} {rate : α}
    (h : UpdateLaw.ofSystem system rate = .ok law) : law.Square := by
  obtain ⟨p, found, unknowns, -, -, -, newton⟩ := ofSystem_eq_ok h
  obtain ⟨-, -, iterated, square⟩ := Partition.ofResiduals_eq_ok found
  intro n hn
  rw [newton] at hn
  split at hn
  · cases hn
  cases hn
  refine ⟨square, fun u hu => ?_⟩
  rw [iterated] at hu
  rw [unknowns]
  exact (List.mem_filter.mp hu).1

namespace Program

omit [Scalar α] in
theorem length_iteratedUnknowns {n : NewtonIteration α} (known : ∀ u ∈ n.unknowns, u ∈ law.unknowns) :
    (iteratedUnknowns law n).length = n.unknowns.length := by
  unfold iteratedUnknowns
  rw [List.length_map, List.length_filterMap_eq_countP, List.countP_eq_length]
  intro u hu
  obtain ⟨i, hi⟩ := exists_of_placeOf? (known u hu)
  rw [hi]
  rfl

/-- The loops of a square system are square. -/
theorem squared_ofLaw (square : law.Square) {tolerance : α} {p : Program α}
    (h : ofLaw law tolerance = .ok p) : p.Squared := by
  intro l hl
  obtain ⟨n, newton, unknowns, residuals⟩ := (disciplined_ofLaw h).2 l hl
  obtain ⟨same, known⟩ := square n newton
  unfold Loop.Squared Loop.size
  rw [unknowns, length_iteratedUnknowns known, residuals, same]

end Program

end AnalogCircuit
