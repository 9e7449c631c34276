import AnalogCircuit.Proofs.Allocation
import AnalogCircuit.Proofs.NewtonProgram
import AnalogCircuit.Proofs.Reset
/-!
# Compiled programs are well formed

All registers that a compiled program names exist. Fixed registers, those of constants and those of values in between
are apart from each other, every value in between is written by exactly one instruction, and what is written in a loop
is read in no other block. Of the fixed registers only those of unknowns are written: by the loop, or by one copy.
-/

namespace AnalogCircuit

variable {α : Type}

/-! ## Reading and writing -/

/-- The fixed registers, group after group. -/
def Layout.groups (l : Layout) : List (List Reg) :=
  [(List.range l.unknowns).map l.previousUnknown, (List.range l.inputs).map l.input,
    (List.range l.inputs).map l.previousInput, (List.range l.parameters).map l.parameter, [l.previousTime],
    (List.range l.unknowns).map l.unknown]

/-- The groups follow each other without gaps. -/
theorem Layout.flatten_groups (l : Layout) : l.groups.flatten = List.range l.size := by
  have shift (first n : Nat) : (List.range n).map (first + ·) = List.range' first n := by
    rw [List.range_eq_range', List.map_add_range', Nat.add_zero]
  have front : (List.range l.unknowns).map l.previousUnknown = List.range' 0 l.unknowns :=
    (List.map_id _).trans List.range_eq_range'
  have size : l.size = l.unknowns + (l.inputs + (l.inputs + (l.parameters + (1 + l.unknowns)))) := by
    change l.unknowns + 2 * l.inputs + l.parameters + 1 + l.unknowns = (_ : Nat)
    omega
  unfold groups
  simp only [List.flatten_cons, List.flatten_nil, List.append_nil]
  rw [front, show l.input = (l.unknowns + ·) from rfl, show l.previousInput = (l.unknowns + l.inputs + ·) from rfl,
    show l.parameter = (l.unknowns + 2 * l.inputs + ·) from rfl,
    show l.unknown = (l.previousTime + 1 + ·) from rfl, shift, shift, shift, shift,
    show [l.previousTime] = List.range' l.previousTime 1 from rfl,
    show l.previousTime = l.unknowns + 2 * l.inputs + l.parameters from rfl, Nat.two_mul, ← Nat.add_assoc]
  rw [List.range'_append_1, List.range'_append_1, List.range'_append_1, List.range'_append_1,
    List.range_eq_range', size, ← List.range'_append_1 (s := 0), Nat.zero_add]

/-- The registers that a block reads. -/
def Block.reads : Block → List Reg
  | straight is => is.flatMap (·.operation.operands)
  | newton l => l.unknowns.flatMap (fun x => [x.1, x.2]) ++ l.body.flatMap (·.operation.operands) ++
      l.residuals ++ l.jacobian.map (·.2.2)

/-- The targets of the instructions of a block. -/
def Block.targets (b : Block) : List Reg := b.instructions.map (·.target)

/-- The registers that a block corrects. -/
def Block.corrected : Block → List Reg
  | straight _ => []
  | newton l => l.unknowns.map (·.1)

theorem Block.writes_iff {b : Block} {r : Reg} : b.Writes r ↔ r ∈ b.targets ∨ r ∈ b.corrected := by
  cases b with
  | straight is => simp [Writes, Written, targets, corrected, instructions]
  | newton l => simp [Writes, Written, targets, corrected, instructions]

theorem Grounded.operands {known : Reg → Prop} {is : List Instruction} (h : Grounded known is) :
    ∀ r ∈ is.flatMap (·.operation.operands), known r ∨ Written is r := by
  induction is generalizing known with
  | nil => simp
  | cons i is ih =>
    intro r hr
    rcases List.mem_append.mp hr with hr | hr
    · exact .inl (h.1 r hr)
    · rcases ih h.2 r hr with (hr | hr) | ⟨j, hj, same⟩
      · exact .inl hr
      · exact .inr ⟨i, List.mem_cons_self, hr.symm⟩
      · exact .inr ⟨j, List.mem_cons_of_mem _ hj, same⟩

/-- What blocks read is known, or the target of an instruction of a straight block or of the block itself. -/
theorem GroundedBlocks.reads {known : Reg → Prop} {bs : List Block} (h : GroundedBlocks known bs) :
    ∀ b ∈ bs, ∀ r ∈ b.reads, known r ∨ ∃ b' ∈ bs, r ∈ b'.targets ∧ (b' = b ∨ b'.isStraight) := by
  induction bs generalizing known with
  | nil => simp
  | cons b bs ih =>
    obtain ⟨here, rest⟩ : (∀ r ∈ b.reads, known r ∨ r ∈ b.targets) ∧
        GroundedBlocks (fun r => known r ∨ b.isStraight ∧ r ∈ b.targets) bs := by
      cases b with
      | straight is =>
        refine ⟨fun r hr => (h.1.operands r hr).imp_right List.mem_map.mpr, h.2.mono fun r hr => ?_⟩
        exact hr.imp_right fun written => ⟨rfl, List.mem_map.mpr written⟩
      | newton l =>
        refine ⟨fun r hr => ?_, h.2.mono fun r hr => .inl hr⟩
        simp only [Block.reads, List.mem_append] at hr
        rcases hr with ((hr | hr) | hr) | hr
        · obtain ⟨x, hx, hr⟩ := List.mem_flatMap.mp hr
          rcases List.mem_pair.mp hr with rfl | rfl
          · exact .inl (h.1.unknowns x hx).1
          · exact .inl (h.1.unknowns x hx).2
        · exact (h.1.body.operands r hr).imp_right List.mem_map.mpr
        · exact (h.1.residuals r hr).imp_right List.mem_map.mpr
        · obtain ⟨x, hx, rfl⟩ := List.mem_map.mp hr
          exact (h.1.jacobian x hx).imp_right List.mem_map.mpr
    refine List.forall_mem_cons.mpr ⟨fun r hr => ?_, fun b' hb' r hr => ?_⟩
    · exact (here r hr).imp_right fun own => ⟨b, List.mem_cons_self, own, .inl rfl⟩
    · rcases ih rest b' hb' r hr with (hr | ⟨straight, hr⟩) | ⟨b'', mem, hr, kind⟩
      · exact .inl hr
      · exact .inr ⟨b, List.mem_cons_self, hr, .inr straight⟩
      · exact .inr ⟨b'', List.mem_cons_of_mem _ mem, hr, kind⟩

/-! ## Well-formed programs -/

namespace Program

/-- The targets of all instructions. -/
def targets (p : Program α) : List Reg := p.blocks.flatMap (·.targets)

/-- The registers that the loops correct. -/
def corrected (p : Program α) : List Reg := p.blocks.flatMap (·.corrected)

/-- The register is neither fixed nor that of a constant. -/
def Temporary (p : Program α) (r : Reg) : Prop :=
  p.layout.size ≤ r ∧ r < p.registers ∧ ∀ c ∈ p.constants, c.1 ≠ r

/-- What can be relied on when a program is executed. -/
structure WellFormed [Scalar α] (p : Program α) : Prop where
  /-- No group of fixed registers overlaps another. -/
  groups : p.layout.groups.flatten = List.range p.layout.size
  constants : (p.constants.map (·.1)).Nodup ∧ ∀ c ∈ p.constants, p.layout.size ≤ c.1 ∧ c.1 < p.registers
  /-- All registers that are read or written exist. -/
  inside : ∀ b ∈ p.blocks, (∀ r ∈ b.reads, r < p.registers) ∧ ∀ r, b.Writes r → r < p.registers
  room : p.workspace.registers.size = p.registers
  /-- The buffers have room for every loop, which has as many residuals as unknowns. -/
  loops : ∀ l, .newton l ∈ p.blocks → l.Squared ∧ p.workspace.scratch.Fits l.size ∧
    ∀ x ∈ l.jacobian, x.1 < l.size ∧ x.2.1 < l.size
  /-- What is read is fixed, a constant, or has been written. -/
  grounded : GroundedBlocks p.Ground p.blocks
  temporaries : ∀ r, p.Temporary r → p.targets.count r = 1
  /-- The body of a loop writes temporaries, which no other block reads. -/
  bodies : ∀ l, .newton l ∈ p.blocks → ∀ i ∈ l.body, p.Temporary i.target ∧
    ∀ b ∈ p.blocks, b ≠ .newton l → i.target ∉ b.reads
  /-- Neither constants nor what is given is written. -/
  frame : ∀ b ∈ p.blocks, ∀ r, b.Writes r →
    (∃ i < p.layout.unknowns, r = p.layout.unknown i) ∨ p.Temporary r
  /-- Unknowns are corrected or copied, once and not both. -/
  unknowns : ∀ i < p.layout.unknowns,
    p.corrected.count (p.layout.unknown i) + p.targets.count (p.layout.unknown i) ≤ 1 ∧
      ∀ b ∈ p.blocks, ∀ j ∈ b.instructions, j.target = p.layout.unknown i → ∃ r, j.operation = .copy r

/-! ## The registers that a program takes -/

open Emission Emit

/-- Registers behind the fixed ones are taken once each, and fixed ones are written by copies to those in `stored`. -/
structure Allocated (p : Program α) (stored : List Reg) : Prop where
  once : (p.constants.map (·.1) ++ p.targets).Perm
    (stored ++ List.range' p.layout.size (p.registers - p.layout.size))
  copies : ∀ b ∈ p.blocks, ∀ i ∈ b.instructions, i.target < p.layout.size → ∃ r, i.operation = .copy r

section

variable [Scalar α] {law : UpdateLaw α} {past : List Instruction} {stored : List Reg} {s s' : Emission α}

/-- The register of an unknown. -/
def currentOf? (law : UpdateLaw α) (u : Symbol) : Option Reg := (placeOf? law u).map (layoutOf law).unknown

omit [Scalar α] in
theorem iteratedUnknowns_current (law : UpdateLaw α) (n : NewtonIteration α) :
    (iteratedUnknowns law n).map (·.1) = n.unknowns.filterMap (currentOf? law) := by
  unfold iteratedUnknowns
  rw [List.map_map, List.map_filterMap]
  rfl

omit [Scalar α] in
theorem placeOf?_injective {u u' : Symbol} {r : Reg} (h : currentOf? law u = some r)
    (h' : currentOf? law u' = some r) : u = u' := by
  obtain ⟨i, hi, rfl⟩ := Option.map_eq_some_iff.mp h
  obtain ⟨j, hj, same⟩ := Option.map_eq_some_iff.mp h'
  obtain rfl : j = i := Nat.add_left_cancel same
  exact Option.some.inj ((getElem?_of_placeOf? hi).symm.trans (getElem?_of_placeOf? hj))

/-- The entries of a Jacobian lie in its rows and columns. -/
theorem NewtonIteration.lt_of_mem_entries {n : NewtonIteration α} {x : Nat × Nat × Expr α}
    (h : x ∈ n.entries) : x.1 < n.residuals.length ∧ x.2.1 < n.unknowns.length := by
  unfold NewtonIteration.entries NewtonIteration.jacobian at h
  obtain ⟨⟨row, i⟩, hrow, h⟩ := List.mem_flatMap.mp h
  obtain ⟨⟨e, j⟩, he, found⟩ := List.mem_filterMap.mp h
  have row_at := List.mk_mem_zipIdx_iff_getElem?.mp hrow
  have entry_at := List.mk_mem_zipIdx_iff_getElem?.mp he
  have i_lt := (List.getElem?_eq_some_iff.mp row_at).1
  have j_lt := (List.getElem?_eq_some_iff.mp entry_at).1
  obtain ⟨r, -, rfl⟩ := List.mem_map.mp (List.mem_of_getElem? row_at)
  rw [List.length_map] at i_lt j_lt
  dsimp only at found
  split at found
  · cases found
  · cases found
    exact ⟨i_lt, j_lt⟩

/-- What is known of a loop that is emitted first. -/
structure LoopFits (law : UpdateLaw α) (l : Loop) (n : NewtonIteration α) : Prop where
  body : ∀ i ∈ l.body, (layoutOf law).size ≤ i.target
  unknowns : l.unknowns = iteratedUnknowns law n
  jacobian : ∀ x ∈ l.jacobian, x.1 < n.residuals.length ∧ x.2.1 < n.unknowns.length

theorem newtonBlocks_allocated {n : NewtonIteration α} {blocks : List Block}
    (h : newtonBlocks law (registerOf law) n (.start (layoutOf law).size) = .ok (blocks, s)) :
    ∃ past l, blocks = straightBlocks past ++ [.newton l] ∧
      Emission.Allocated (layoutOf law).size [] (past ++ l.body) s ∧ s.body? = none ∧ s.pending = [] ∧
        LoopFits law l n := by
  obtain ⟨residuals, jacobian, s₁, iterated, rfl, rfl⟩ := newtonBlocks_iterated h
  have emitted := ((allocated_start (layoutOf law).size).openLoop rfl _).steps iterated.steps
  refine ⟨s₁.pending, _, rfl, emitted.closeLoop, rfl, rfl, fun i hi => ?_, rfl, fun x hx => ?_⟩
  · have taken : i.target ∈ s₁.taken [] :=
      List.mem_append_right _ (List.mem_map_of_mem (List.mem_append_right _ hi))
    exact (List.mem_range'_1.mp (emitted.once.mem_iff.mp taken)).1
  · obtain ⟨e, he, row, column⟩ := iterated.entries x hx
    rw [row, column]
    exact NewtonIteration.lt_of_mem_entries he

theorem forM_allocated {as : List (Assignment α)} (allocated : Emission.Allocated (layoutOf law).size stored past s)
    {before : List Instruction} (recalls : s.Recalls (layoutOf law).size before) (closed : s.body? = none)
    (h : as.forM (assign law (registerOf law)) s = .ok ((), s')) :
    ∃ more, more.Sublist (as.filterMap (target? law)) ∧
      Emission.Allocated (layoutOf law).size (stored ++ more) past s' ∧ s'.body? = none := by
  induction as generalizing s stored with
  | nil =>
    cases h
    exact ⟨[], .slnil, by rwa [List.append_nil], closed⟩
  | cons a as ih =>
    obtain ⟨_, s₁, h₁, h₂⟩ := bind_eq_ok h
    obtain ⟨r, s₂, steps, -, recalls₁, stored⟩ := assign_proceeds recalls h₁
    have allocated₂ := allocated.steps steps
    have closed₂ := closed_of_loop steps.extends_.loop closed
    obtain ⟨target, rfl⟩ | ⟨i, -, target, rfl⟩ := stored
    · rw [List.filterMap_cons_none target]
      exact ih allocated₂ recalls₁ closed₂ h₂
    · rw [List.filterMap_cons_some target]
      have closed₃ : (s₂.copy ((layoutOf law).unknown i) r).body? = none := by
        unfold Emission.copy
        split <;> exact closed₂
      rcases allocated₂.copy ((layoutOf law).unknown i) r with same | written
      · obtain ⟨more, sub, rest⟩ := ih same recalls₁ closed₃ h₂
        exact ⟨more, sub.cons _, rest⟩
      · obtain ⟨more, sub, rest⟩ := ih written recalls₁ closed₃ h₂
        rw [List.append_assoc] at rest
        exact ⟨_ :: more, sub.cons_cons _, rest⟩

/-- The code in front of the assignments, which writes no fixed register. -/
theorem loops_allocated {loops : List Block} (front : law.newton? = none ∧ loops = [] ∧
      s = .start (layoutOf law).size ∨ ∃ n, law.newton? = some n ∧
        newtonBlocks law (registerOf law) n (.start (layoutOf law).size) = .ok (loops, s)) :
    ∃ (past : List Instruction) (newtons : List Loop), loops = straightBlocks past ++ newtons.map .newton ∧
      Emission.Allocated (layoutOf law).size [] (past ++ newtons.flatMap (·.body)) s ∧ s.body? = none ∧
      newtons.flatMap (·.unknowns.map (·.1)) = law.newton?.toList.flatMap (·.unknowns.filterMap (currentOf? law)) ∧
      ∀ l ∈ newtons, ∃ n, law.newton? = some n ∧ LoopFits law l n := by
  rcases front with ⟨newton, rfl, rfl⟩ | ⟨n, newton, front⟩
  · exact ⟨[], [], rfl, allocated_start _, rfl, by rw [newton]; rfl, fun _ h => absurd h List.not_mem_nil⟩
  · obtain ⟨past, l, blocks, allocated, closed, -, fits⟩ := newtonBlocks_allocated front
    refine ⟨past, [l], blocks, ?_, closed, ?_, List.forall_mem_singleton.mpr ⟨n, newton, fits⟩⟩
    · rwa [List.flatMap_singleton]
    · rw [newton, List.flatMap_singleton, fits.unknowns, iteratedUnknowns_current]
      exact (List.flatMap_singleton ..).symm

omit [Scalar α] in
theorem flatMap_straightBlocks {β : Type} {f : Block → List β} (empty : f (.straight []) = [])
    (is : List Instruction) : (straightBlocks is).flatMap f = f (.straight is) := by
  unfold straightBlocks
  split
  · next h => rw [List.isEmpty_iff.mp h, empty]; rfl
  · exact List.flatMap_singleton ..

/-- A compiled program takes every register once, and stores to the registers of assigned unknowns. -/
theorem ofLaw_allocated {tolerance : α} {p : Program α} (h : ofLaw law tolerance = .ok p) :
    ∃ stored, stored.Sublist (law.assignments.filterMap (target? law)) ∧ p.Allocated stored ∧
      p.corrected = law.newton?.toList.flatMap (·.unknowns.filterMap (currentOf? law)) ∧
      ∀ l, .newton l ∈ p.blocks → ∃ n, law.newton? = some n ∧ LoopFits law l n := by
  obtain ⟨loops, s, s', front, assigned, rfl⟩ := ofLaw_steps h
  obtain ⟨past, newtons, rfl, allocated, closed, corrected, fits⟩ := loops_allocated front
  obtain ⟨_, _, founded, -⟩ := loops_grounded front
  obtain ⟨stored, sub, allocated', closed'⟩ := forM_allocated allocated founded.computed closed assigned
  have inner : s'.inner = [] := by rw [Emission.inner, closed']; rfl
  have parts {β : Type} {f : Block → List β} (empty : f (.straight []) = []) :
      (straightBlocks past ++ newtons.map Block.newton ++ s'.flush.1).flatMap f =
        f (.straight past) ++ newtons.flatMap (fun l => f (.newton l)) ++ f (.straight s'.pending) := by
    rw [List.flatMap_append, List.flatMap_append, flatMap_straightBlocks empty, List.flatMap_map]
    exact congrArg _ (flatMap_straightBlocks empty _)
  have instructions : (straightBlocks past ++ newtons.map Block.newton ++ s'.flush.1).flatMap (·.instructions) =
      s'.emitted (past ++ newtons.flatMap (·.body)) := by
    rw [parts rfl, emitted, inner, List.append_nil]
    rfl
  refine ⟨stored, sub, ⟨?_, fun b hb i hi => ?_⟩, ?_, fun l hl => ?_⟩
  · have once := allocated'.once
    rw [taken, ← instructions, List.map_flatMap] at once
    exact once
  · exact allocated'.copies i (instructions ▸ List.mem_flatMap.mpr ⟨b, hb, hi⟩)
  · refine (parts rfl).trans ?_
    rw [← corrected]
    exact List.append_nil _
  · rcases List.mem_append.mp hl with hl | hl
    · rcases List.mem_append.mp hl with hl | hl
      · cases mem_straightBlocks hl
      · obtain ⟨l', hl', same⟩ := List.mem_map.mp hl
        cases same
        exact fits l hl'
    · cases mem_straightBlocks (show .newton l ∈ straightBlocks s'.pending from hl)

end

end Program

/-! ## Laws of systems -/

section

variable [Scalar α] [Std.LawfulEqCmp (Scalar.order (α := α))] {system : System α} {law : UpdateLaw α}

theorem System.nodup_discretize (distinct : system.unknowns.Nodup) (step : α) :
    (system.discretize step).unknowns.Nodup := by
  have numbered := system.numbered_timeStates
  rw [System.discretize_eq]
  refine List.nodup_append.mpr ⟨distinct, ?_, fun u hu u' hu' same => ?_⟩
  · refine List.Nodup.of_map Symbol.name ?_
    rw [List.map_map]
    exact numbered.names
  · obtain ⟨s, hs, rfl⟩ := List.mem_map.mp hu'
    obtain ⟨name, named, fresh, -⟩ := numbered.fresh s hs
    refine fresh (List.mem_map.mpr ⟨u, ?_, by rw [same, named]; rfl⟩)
    exact List.mem_append_left _ (List.mem_append_left _ hu)

/-- Every unknown is assigned or iterated, and not both. -/
theorem UpdateLaw.perm_ofSystem {rate : α} (h : UpdateLaw.ofSystem system rate = .ok law)
    (distinct : system.unknowns.Nodup) :
    (law.assignments.map (·.unknown) ++ law.newton?.toList.flatMap (·.unknowns)).Perm law.unknowns ∧
      law.unknowns.Nodup := by
  obtain ⟨p, found, unknowns, -, -, assignments, newton⟩ := ofSystem_eq_ok h
  have each := System.nodup_discretize distinct (1 / rate)
  have iterated : law.newton?.toList.flatMap (·.unknowns) = p.iterated := by
    rw [newton]
    split
    · next empty => exact (List.isEmpty_iff.mp empty).symm
    · exact List.flatMap_singleton ..
  rw [iterated, assignments, unknowns]
  exact ⟨Partition.perm_unknowns each found, each⟩

end

namespace Program

variable [Scalar α] {law : UpdateLaw α} {p : Program α} {stored : List Reg}

namespace Allocated

variable (h : p.Allocated stored) (room : p.layout.size ≤ p.registers)
  (fixed : ∀ r ∈ stored, r < p.layout.size)

include h room

omit [Scalar α]

/-- The registers of constants and the targets of instructions. -/
theorem mem_iff {r : Reg} : r ∈ p.constants.map (·.1) ∨ r ∈ p.targets ↔
    r ∈ stored ∨ p.layout.size ≤ r ∧ r < p.registers := by
  rw [← List.mem_append, h.once.mem_iff, List.mem_append, List.mem_range'_1, Nat.add_sub_cancel' room]

include fixed

theorem lt_registers {r : Reg} (hr : r ∈ p.constants.map (·.1) ∨ r ∈ p.targets) : r < p.registers := by
  rcases (h.mem_iff room).mp hr with hr | hr
  · exact Nat.lt_of_lt_of_le (fixed r hr) room
  · exact hr.2

omit room in
theorem nodup (distinct : stored.Nodup) : (p.constants.map (·.1) ++ p.targets).Nodup := by
  refine h.once.nodup_iff.mpr (List.nodup_append.mpr ⟨distinct, List.nodup_range', fun r hr r' hr' same => ?_⟩)
  exact Nat.not_lt_of_le (List.mem_range'_1.mp (same ▸ hr')).1 (fixed r hr)

omit room fixed in
/-- A fixed register is written as often as it is stored to. -/
theorem count_targets {r : Reg} (low : r < p.layout.size)
    (constants : ∀ c ∈ p.constants, p.layout.size ≤ c.1) : p.targets.count r = stored.count r := by
  have count := h.once.count_eq r
  rw [List.count_append, List.count_append] at count
  have constant : r ∉ p.constants.map (·.1) := by
    intro mem
    obtain ⟨c, hc, rfl⟩ := List.mem_map.mp mem
    exact Nat.not_lt_of_le (constants c hc) low
  have behind : r ∉ List.range' p.layout.size (p.registers - p.layout.size) :=
    fun mem => Nat.not_lt_of_le (List.mem_range'_1.mp mem).1 low
  rwa [List.count_eq_zero_of_not_mem constant, List.count_eq_zero_of_not_mem behind, Nat.zero_add,
    Nat.add_zero] at count

end Allocated

omit [Scalar α] in
/-- A register that is the target of instructions of one block only. -/
theorem eq_of_mem_targets (distinct : p.targets.Nodup) {b b' : Block} (hb : b ∈ p.blocks) (hb' : b' ∈ p.blocks)
    {r : Reg} (hr : r ∈ b.targets) (hr' : r ∈ b'.targets) : b = b' := by
  by_contra other
  have symmetric : Std.Symm (Function.onFun List.Disjoint Block.targets) := ⟨fun _ _ apart => apart.symm⟩
  exact (List.nodup_flatMap.mp distinct).2.forall hb hb' other hr hr'

/-- Programs that take every register once are well formed. -/
theorem Disciplined.wellFormed (h : p.Disciplined) (squared : p.Squared) (allocated : p.Allocated stored)
    (fixed : ∀ r ∈ stored ++ p.corrected, r < p.layout.size) (distinct : (stored ++ p.corrected).Nodup)
    (loops : ∀ l, .newton l ∈ p.blocks → (∀ i ∈ l.body, p.layout.size ≤ i.target) ∧
      ∀ x ∈ l.jacobian, x.1 < l.size ∧ x.2.1 < l.size) : p.WellFormed := by
  obtain ⟨stored_fixed, corrected_fixed⟩ := List.forall_mem_append.mp fixed
  have nodup := allocated.nodup stored_fixed (List.nodup_append.mp distinct).1
  obtain ⟨constants_nodup, targets_nodup, apart⟩ := List.nodup_append.mp nodup
  have target_mem {b : Block} (hb : b ∈ p.blocks) {r : Reg} (hr : r ∈ b.targets) : r ∈ p.targets :=
    List.mem_flatMap.mpr ⟨b, hb, hr⟩
  have target_lt {b : Block} (hb : b ∈ p.blocks) {r : Reg} (hr : r ∈ b.targets) : r < p.registers :=
    allocated.lt_registers h.room stored_fixed (.inr (target_mem hb hr))
  have constant_lt {c : Reg × α} (hc : c ∈ p.constants) : c.1 < p.registers :=
    allocated.lt_registers h.room stored_fixed (.inl (List.mem_map_of_mem hc))
  have writes_lt {b : Block} (hb : b ∈ p.blocks) {r : Reg} (hr : b.Writes r) : r < p.registers := by
    rcases Block.writes_iff.mp hr with hr | hr
    · exact target_lt hb hr
    · exact Nat.lt_of_lt_of_le (corrected_fixed r (List.mem_flatMap.mpr ⟨b, hb, hr⟩)) h.room
  have frame {b : Block} (hb : b ∈ p.blocks) {r : Reg} (hr : b.Writes r) :
      (∃ i < p.layout.unknowns, r = p.layout.unknown i) ∨ p.Temporary r :=
    (h.writes b hb r hr).imp_right fun free => ⟨free.1, writes_lt hb hr, free.2⟩
  refine
    { groups := p.layout.flatten_groups
      constants := ⟨constants_nodup, fun c hc => ⟨h.constants c hc, constant_lt hc⟩⟩
      inside := fun b hb => ⟨fun r hr => ?_, fun r hr => writes_lt hb hr⟩
      room := size_registers₀ p
      loops := fun l hl => ⟨squared l hl, p.roomy_workspace.mono (size_le_loopSize hl), (loops l hl).2⟩
      grounded := h.grounded
      temporaries := fun r hr => ?_
      bodies := fun l hl i hi => ?_
      frame := fun b hb r hr => frame hb hr
      unknowns := fun i hi => ⟨?_, fun b hb j hj same => ?_⟩ }
  · -- what is read is fixed, a constant or a target, and all of these exist
    rcases h.grounded.reads b hb r hr with (low | ⟨c, hc, rfl⟩) | ⟨b', hb', hr, -⟩
    · exact Nat.lt_of_lt_of_le low h.room
    · exact constant_lt hc
    · exact target_lt hb' hr
  · -- every register behind the fixed ones has been taken, and this one not for a constant
    obtain ⟨low, high, free⟩ := hr
    refine List.count_eq_one_of_mem targets_nodup (((allocated.mem_iff h.room).mpr (.inr ⟨low, high⟩)).resolve_left ?_)
    intro constant
    obtain ⟨c, hc, same⟩ := List.mem_map.mp constant
    exact free c hc same
  · have target : i.target ∈ (Block.newton l).targets := List.mem_map_of_mem hi
    have low := (loops l hl).1 i hi
    have temporary : p.Temporary i.target := by
      refine (frame hl (Block.writes_iff.mpr (.inl target))).resolve_left ?_
      rintro ⟨j, hj, same⟩
      exact Nat.not_lt_of_le (same ▸ low) (unknown_lt_size hj)
    -- another block that reads it could only do so because a straight block writes it, too
    refine ⟨temporary, fun b hb other hr => ?_⟩
    rcases h.grounded.reads b hb _ hr with (fixed | ⟨c, hc, same⟩) | ⟨b', hb', hr, kind⟩
    · exact Nat.not_lt_of_le low fixed
    · exact temporary.2.2 c hc same
    · obtain rfl := eq_of_mem_targets targets_nodup hb' hl hr target
      rcases kind with rfl | straight
      · exact other rfl
      · cases straight
  · -- no register is both stored to and corrected, and none is stored to twice
    rw [allocated.count_targets (unknown_lt_size hi) h.constants, Nat.add_comm, ← List.count_append]
    exact List.nodup_iff_count_le_one.mp distinct _
  · exact allocated.copies b hb j hj (same ▸ unknown_lt_size hi)

/-- The program of a system with distinct unknowns is well formed. -/
theorem wellFormed_ofLaw [Std.LawfulEqCmp (Scalar.order (α := α))] {system : System α} {rate tolerance : α}
    (distinct : system.unknowns.Nodup) (solved : UpdateLaw.ofSystem system rate = .ok law)
    (compiled : ofLaw law tolerance = .ok p) : p.WellFormed := by
  obtain ⟨stored, sub, allocated, corrected, fits⟩ := ofLaw_allocated compiled
  obtain ⟨disciplined, -⟩ := disciplined_ofLaw compiled
  have square := UpdateLaw.square_ofSystem solved
  have squared := squared_ofLaw square compiled
  obtain ⟨perm, each⟩ := UpdateLaw.perm_ofSystem solved distinct
  have layout : p.layout = layoutOf law := by
    obtain ⟨_, _, _, -, -, rfl⟩ := ofLaw_steps compiled
    rfl
  have all : (stored ++ p.corrected).Sublist
      ((law.assignments.map (·.unknown) ++ law.newton?.toList.flatMap (·.unknowns)).filterMap (currentOf? law)) := by
    rw [List.filterMap_append, List.filterMap_map, List.filterMap_flatMap, ← corrected]
    exact sub.append_right _
  refine disciplined.wellFormed squared allocated (fun r hr => ?_) ?_ fun l hl => ?_
  · obtain ⟨u, -, hu⟩ := List.mem_filterMap.mp (all.subset hr)
    obtain ⟨i, hi, rfl⟩ := Option.map_eq_some_iff.mp hu
    rw [layout]
    exact unknown_lt_size (lt_of_placeOf? hi)
  · refine all.nodup ((perm.nodup_iff.mpr each).filterMap fun u u' r hu hu' => ?_)
    exact placeOf?_injective hu hu'
  · obtain ⟨n, newton, body, unknowns, jacobian⟩ := fits l hl
    obtain ⟨same, known⟩ := square n newton
    have size : l.size = n.unknowns.length := by
      unfold Loop.size
      rw [unknowns, length_iteratedUnknowns known]
    refine ⟨layout ▸ body, fun x hx => ?_⟩
    rw [size, ← same]
    exact ⟨(jacobian x hx).1, same ▸ (jacobian x hx).2⟩

/-- A program with a loop, work in front of it, constants that are first met inside, and a copy behind it. -/
theorem wellFormed_cubicDischarge :
    ∃ law n p, UpdateLaw.ofSystem Simulation.cubicDischarge 1 = .ok law ∧ law.newton? = some n ∧
      ofLaw law 1 = .ok p ∧ p.layout.size = 8 ∧ p.registers = 27 ∧ p.corrected = [6] ∧
      p.targets = [10, 16, 8, 9, 11, 12, 14, 17, 18, 19, 21, 22, 23, 24, 25, 26, 7] ∧
      p.constants.map (·.1) = [13, 15, 20] ∧ p.WellFormed := by
  have shape : ((UpdateLaw.ofSystem Simulation.cubicDischarge 1).toOption.bind fun law =>
      law.newton?.bind fun n => (ofLaw law 1).toOption.map fun p =>
        (p.layout.size, p.registers, p.corrected, p.targets, p.constants.map (·.1))) =
      some (8, 27, [6], [10, 16, 8, 9, 11, 12, 14, 17, 18, 19, 21, 22, 23, 24, 25, 26, 7], [13, 15, 20]) := by
    decide +kernel
  obtain ⟨law, n, p, solved, newton, compiled, shape⟩ := exists_program shape
  simp only [Prod.mk.injEq] at shape
  obtain ⟨size, registers, corrected, targets, constants⟩ := shape
  exact ⟨law, n, p, solved, newton, compiled, size, registers, corrected, targets, constants,
    wellFormed_ofLaw (by decide) solved compiled⟩

end Program

end AnalogCircuit
