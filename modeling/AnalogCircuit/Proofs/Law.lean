import AnalogCircuit.Proofs.Bracket
/-!
# The program of an update law

The program of a law executes its loop, if there is one, and then its assignments. If no expression reads an
unknown that is assigned later, nothing that has been computed becomes stale, and in the end every assigned unknown
has the value of its expression in the registers as they then are.
-/

namespace AnalogCircuit

variable {α : Type}

/-- The block is no loop. -/
def Block.isStraight : Block → Bool
  | straight _ => true
  | newton _ => false

namespace Program

/-! ## Registers and reading -/

/-- The register of a symbol. -/
def registerOf (law : UpdateLaw α) (x : Symbol) : Option Reg := (symbolTable law).lookup x

/-- The register that an assignment writes. -/
def target? (law : UpdateLaw α) (a : Assignment α) : Option Reg :=
  (placeOf? law a.unknown).map (layoutOf law).unknown

/-- The values of the symbols of a law in some registers. -/
abbrev symbols [Scalar α] (law : UpdateLaw α) (rs : Registers α) : Symbol → Option α :=
  contents (registerOf law) rs.value

/-- The expression reads the register that the assignment writes. -/
def Reads (law : UpdateLaw α) (e : Expr α) (a : Assignment α) : Prop :=
  ∃ x, e.contains x = true ∧ registerOf law x = target? law a

theorem unknown_lt_size {l : Layout} {i : Nat} (h : i < l.unknowns) : l.unknown i < l.size := by
  unfold Layout.size Layout.unknown
  exact Nat.add_lt_add_left h _

/-- The symbols that a program may read are the unknowns, the inputs, the parameters and the previous time. -/
theorem mem_symbolTable {law : UpdateLaw α} {x : Symbol} {r : Reg} : (x, r) ∈ symbolTable law ↔
    (∃ u i, law.unknowns[i]? = some u ∧ (x = u.current ∧ r = (layoutOf law).unknown i ∨
      x = u.previous ∧ r = (layoutOf law).previousUnknown i)) ∨
    (∃ v i, law.inputs[i]? = some v ∧ (x = v.current ∧ r = (layoutOf law).input i ∨
      x = v.previous ∧ r = (layoutOf law).previousInput i)) ∨
    (∃ p i, law.parameters[i]? = some p ∧ x = p.symbol ∧ r = (layoutOf law).parameter i) ∨
    x = .previousTime ∧ r = (layoutOf law).previousTime := by
  unfold symbolTable
  simp only [List.mem_reverse, List.mem_append, List.mem_flatMap, List.mem_map, List.mem_cons,
    List.not_mem_nil, or_false, Prod.mk.injEq, Prod.exists, List.mk_mem_zipIdx_iff_getElem?, or_assoc,
    @eq_comm _ x, @eq_comm _ r]

theorem mem_of_registerOf {law : UpdateLaw α} {x : Symbol} {r : Reg}
    (h : registerOf law x = some r) : (x, r) ∈ symbolTable law := by
  obtain ⟨before, after, all, -⟩ := List.lookup_eq_some_iff.mp h
  rw [all]
  exact List.mem_append_right _ List.mem_cons_self

/-- The registers of symbols are fixed. -/
theorem registerOf_lt {law : UpdateLaw α} {x : Symbol} {r : Reg} (h : registerOf law x = some r) :
    r < (layoutOf law).size := by
  have inside {β : Type} {l : List β} {i : Nat} {b : β} (h : l[i]? = some b) : i < l.length :=
    (List.getElem?_eq_some_iff.mp h).1
  have entry := mem_symbolTable.mp (mem_of_registerOf h)
  simp only [Layout.size, Layout.unknown, Layout.previousUnknown, Layout.input,
    Layout.previousInput, Layout.parameter, Layout.previousTime, layoutOf] at entry ⊢
  rcases entry with ⟨u, i, hi, ⟨-, rfl⟩ | ⟨-, rfl⟩⟩ | ⟨v, i, hi, ⟨-, rfl⟩ | ⟨-, rfl⟩⟩ |
    ⟨p, i, hi, -, rfl⟩ | ⟨-, rfl⟩
  all_goals
    try have := inside hi
    change (_ : Nat) < _
    omega

theorem getElem?_of_placeOf? {law : UpdateLaw α} {u : Symbol} {i : Nat} (h : placeOf? law u = some i) :
    law.unknowns[i]? = some u := by
  obtain ⟨before, after, all, -⟩ := List.lookup_eq_some_iff.mp h
  refine List.mk_mem_zipIdx_iff_getElem?.mp (List.mem_reverse.mp ?_)
  rw [all]
  exact List.mem_append_right _ List.mem_cons_self

theorem exists_of_placeOf? {law : UpdateLaw α} {u : Symbol} (h : u ∈ law.unknowns) :
    ∃ i, placeOf? law u = some i := by
  refine Option.isSome_iff_exists.mp ?_
  unfold placeOf?
  rw [List.lookup_isSome_iff]
  obtain ⟨i, hi⟩ := List.getElem?_of_mem h
  exact ⟨(u, i), List.mem_reverse.mpr (List.mk_mem_zipIdx_iff_getElem?.mpr hi), beq_self_eq_true _⟩

/-- The unknown of an assignment is one of the unknowns of the law. -/
theorem exists_of_target? {law : UpdateLaw α} {a : Assignment α} {r : Reg}
    (h : target? law a = some r) :
    ∃ i, law.unknowns[i]? = some a.unknown ∧ r = (layoutOf law).unknown i := by
  obtain ⟨i, hi, rfl⟩ := Option.map_eq_some_iff.mp h
  exact ⟨i, getElem?_of_placeOf? hi, rfl⟩

theorem target?_lt {law : UpdateLaw α} {a : Assignment α} {r : Reg} (h : target? law a = some r) :
    r < (layoutOf law).size := by
  obtain ⟨i, hi, rfl⟩ := exists_of_target? h
  exact unknown_lt_size (List.getElem?_eq_some_iff.mp hi).1

/-! ## Loops -/

section

variable [Scalar α] {law : UpdateLaw α}

/-- The registers of the iterated unknowns and of their previous values. -/
def iteratedUnknowns (law : UpdateLaw α) (n : NewtonIteration α) : List (Reg × Reg) :=
  (n.unknowns.filterMap (placeOf? law)).map fun i =>
    ((layoutOf law).unknown i, (layoutOf law).previousUnknown i)

omit [Scalar α] in
/-- The iterated registers are fixed. -/
theorem iteratedRegisters_lt (law : UpdateLaw α) (n : NewtonIteration α) :
    ∀ r ∈ (iteratedUnknowns law n).map (·.1), r < (layoutOf law).size := by
  intro r hr
  rw [iteratedUnknowns, List.map_map] at hr
  obtain ⟨i, hi, rfl⟩ := List.mem_map.mp hr
  obtain ⟨u, -, hu⟩ := List.mem_filterMap.mp hi
  exact unknown_lt_size (List.getElem?_eq_some_iff.mp (getElem?_of_placeOf? hu)).1

/-- An iteration is emitted in three steps: the residuals, the entries of their Jacobian, and the blocks. -/
theorem newtonBlocks_steps {n : NewtonIteration α} {blocks : List Block} {s : Emission α}
    (h : newtonBlocks law (registerOf law) n (.start (layoutOf law).size) = .ok (blocks, s)) :
    ∃ residuals jacobian s₁ s₂,
      n.residuals.mapM (Emit.expr (registerOf law))
        ((Emission.start (layoutOf law).size).openLoop ((iteratedUnknowns law n).map (·.1))) =
          .ok (residuals, s₁) ∧
      n.entries.mapM (fun e => (do return (e.1, e.2.1, ← Emit.expr (registerOf law) e.2.2) :
        Emit α (Nat × Nat × Reg))) s₁ = .ok (jacobian, s₂) ∧
      blocks = s₂.flush.1 ++
        [.newton ⟨iteratedUnknowns law n, s₂.inner, residuals, jacobian⟩] ∧
      s = s₂.closeLoop.2.flush.2 := by
  unfold newtonBlocks at h
  obtain ⟨_, s₀, opened, h⟩ := Emit.bind_eq_ok h
  cases opened
  obtain ⟨residuals, s₁, h₁, h⟩ := Emit.bind_eq_ok h
  obtain ⟨jacobian, s₂, h₂, h⟩ := Emit.bind_eq_ok h
  cases h
  exact ⟨residuals, jacobian, s₁, s₂, h₁, h₂, rfl, rfl⟩

/-- An assignment is emitted in two steps: its value, and the copy to its unknown, if that has a place. -/
theorem assign_steps {registers : Symbol → Option Reg} {a : Assignment α} {s s' : Emission α}
    (h : assign law registers a s = .ok ((), s')) : ∃ r s₁, Emit.expr registers a.value s = .ok (r, s₁) ∧
      (target? law a = none ∧ s' = s₁ ∨ ∃ i, placeOf? law a.unknown = some i ∧
        target? law a = some ((layoutOf law).unknown i) ∧ s' = s₁.copy ((layoutOf law).unknown i) r) := by
  unfold assign at h
  obtain ⟨r, s₁, emitted, h⟩ := Emit.bind_eq_ok h
  refine ⟨r, s₁, emitted, ?_⟩
  unfold target?
  cases place : placeOf? law a.unknown with
  | none =>
    rw [place] at h
    cases h
    exact .inl ⟨rfl, rfl⟩
  | some i =>
    rw [place] at h
    cases h
    exact .inr ⟨i, rfl, rfl, rfl⟩

/-- A law is compiled in two steps: the blocks of its iteration, if it has one, and its assignments. -/
theorem ofLaw_steps {tolerance : α} {p : Program α} (h : ofLaw law tolerance = .ok p) :
    ∃ loops s s', (law.newton? = none ∧ loops = [] ∧ s = .start (layoutOf law).size ∨
        ∃ n, law.newton? = some n ∧
          newtonBlocks law (registerOf law) n (.start (layoutOf law).size) = .ok (loops, s)) ∧
      law.assignments.forM (assign law (registerOf law)) s = .ok ((), s') ∧
      p = ⟨layoutOf law, law.unknowns, law.inputs, law.parameters.map (·.symbol), loops ++ s'.flush.1,
        s'.constants, s'.next, tolerance⟩ := by
  unfold ofLaw at h
  change (blocksOf law (registerOf law) (.start (layoutOf law).size) >>= fun x => _) = _ at h
  rcases emitted : blocksOf law (registerOf law) (.start (layoutOf law).size) with _ | ⟨blocks, s'⟩
  · rw [emitted] at h; cases h
  rw [emitted] at h
  cases h
  unfold blocksOf at emitted
  cases hn : law.newton? with
  | some n =>
    rw [hn] at emitted
    obtain ⟨loops, s, front, emitted⟩ := Emit.bind_eq_ok emitted
    obtain ⟨_, s₁, assigned, emitted⟩ := Emit.bind_eq_ok emitted
    cases emitted
    exact ⟨loops, s, s₁, .inr ⟨n, rfl, front⟩, assigned, rfl⟩
  | none =>
    rw [hn] at emitted
    obtain ⟨_, _, front, emitted⟩ := Emit.bind_eq_ok emitted
    cases front
    obtain ⟨_, s₁, assigned, emitted⟩ := Emit.bind_eq_ok emitted
    cases emitted
    exact ⟨[], _, s₁, .inl ⟨rfl, rfl, rfl⟩, assigned, rfl⟩

end

/-! ## Order -/

/-- The expressions of the iteration. -/
def iterated [Scalar α] (law : UpdateLaw α) : List (Expr α) :=
  match law.newton? with
  | some n => n.residuals ++ n.entries.map (·.2.2)
  | none => []

/-- Every expression can be computed before the unknowns that it does not read are assigned. -/
structure Ordered [Scalar α] (law : UpdateLaw α) : Prop where
  powers : ∀ e ∈ iterated law ++ law.assignments.map (·.value), e.hasIntegralPowers = true
  placed : ∀ a ∈ law.assignments, (target? law a).isSome = true
  distinct : law.assignments.Pairwise fun a b => target? law a ≠ target? law b
  iterated : ∀ e ∈ iterated law, ∀ a ∈ law.assignments, ¬Reads law e a
  own : ∀ a ∈ law.assignments, ¬Reads law a.value a
  later : law.assignments.Pairwise fun a b => ¬Reads law a.value b

section

variable [ExactScalar α] {law : UpdateLaw α} {as : List (Assignment α)}

/-- No assignment that is left writes the register. -/
def Readable (law : UpdateLaw α) (as : List (Assignment α)) (r : Reg) : Prop :=
  ∀ a ∈ as, target? law a ≠ some r

theorem admissible_of_not_reads {e : Expr α} (powers : e.hasIntegralPowers = true)
    (unread : ∀ a ∈ as, ¬Reads law e a) :
    Emit.Admissible (registerOf law) (layoutOf law).size (Readable law as) e :=
  ⟨powers, fun x hx _ hr =>
    ⟨registerOf_lt hr, fun a ha h => unread a ha ⟨x, hx, hr.trans h.symm⟩⟩⟩

/-! ## Emission of a law -/

open Emission Emit

/-- The blocks of an iteration: instructions in front of the loop, and the loop. -/
theorem newtonBlocks_eq_ok {n : NewtonIteration α} {blocks : List Block} {s : Emission α}
    (admissible : ∀ e ∈ n.residuals ++ n.entries.map (·.2.2),
      Admissible (registerOf law) (layoutOf law).size (Readable law as) e)
    (h : newtonBlocks law (registerOf law) n (.start (layoutOf law).size) = .ok (blocks, s)) :
    ∃ s₁ loop, Sound (registerOf law) (layoutOf law).size (Readable law as) [] s₁ ∧
      loop.body = s₁.inner ∧
      (∀ r ∈ loop.unknowns.map (·.1), r < (layoutOf law).size ∧ r ∈ s₁.varying) ∧
      blocks = s₁.flush.1 ++ [.newton loop] ∧ s = s₁.closeLoop.2.flush.2 := by
  obtain ⟨residuals, entries, s₁, s₂, h₁, h₂, rfl, rfl⟩ := newtonBlocks_steps h
  have fixed := iteratedRegisters_lt law n
  obtain ⟨sound₁, ext₁⟩ := keeps_mapM (fun e he =>
    keeps_expr (admissible e (List.mem_append_left _ he))) _ _ _ h₁ (sound_openLoop fixed)
  have entry : ∀ e ∈ n.entries, Keeps (registerOf law) (layoutOf law).size (Readable law as) []
      (do return (e.1, e.2.1, ← Emit.expr (registerOf law) e.2.2)) := by
    intro e he s x s' hx sound
    obtain ⟨r, s₃, hr, hx⟩ := bind_eq_ok hx
    cases hx
    refine keeps_expr (admissible _ (List.mem_append_right _ ?_)) _ _ _ hr sound
    exact List.mem_map_of_mem he
  obtain ⟨sound₂, ext₂⟩ := keeps_mapM entry _ _ _ h₂ sound₁
  refine ⟨s₂, _, sound₂, rfl, fun r hr => ⟨fixed r hr, ?_⟩, rfl, rfl⟩
  exact ((ext₁.trans ext₂).varying r (fixed r hr)).mpr hr

variable {past : List Instruction} {s s' : Emission α}

/-- What emitting assignments achieves: wherever the code is obeyed, the unknowns have the values of their
expressions, and no other fixed register is written. -/
structure Assigns (law : UpdateLaw α) (past : List Instruction) (as rest : List (Assignment α))
    (s s' : Emission α) : Prop where
  sound : Sound (registerOf law) (layoutOf law).size (Readable law rest) past s'
  closed : s'.body? = none
  constants : ∀ c ∈ s.constants, c ∈ s'.constants
  allocated : ∀ c ∈ s'.constants, c ∈ s.constants ∨ s.next ≤ c.1
  obeyed : ∀ ρ, Obeyed past s' False ρ → Obeyed past s False ρ
  next : s.next ≤ s'.next
  written : ∀ i ∈ s'.pending, i ∈ s.pending ∨ s.next ≤ i.target ∨
    ∃ a ∈ as, target? law a = some i.target
  emittable : ∀ a ∈ as, a.value.isEmittable (bound (registerOf law)) = true
  assigned : ∀ a ∈ as, ∀ r, target? law a = some r → ∀ ρ, Obeyed past s' False ρ →
    a.value.value (contents (registerOf law) ρ) = ρ r

/-- An assignment is emitted while nothing has read its unknown. -/
theorem assign_assigns {a : Assignment α} (powers : a.value.hasIntegralPowers = true)
    (placed : (target? law a).isSome = true) (unread : ∀ b ∈ a :: as, ¬Reads law a.value b)
    (distinct : ∀ b ∈ as, target? law a ≠ target? law b) (closed : s.body? = none)
    (sound : Sound (registerOf law) (layoutOf law).size (Readable law (a :: as)) past s)
    (h : assign law (registerOf law) a s = .ok ((), s')) : Assigns law past [a] as s s' := by
  obtain ⟨r, s₁, h₁, ⟨unplaced, -⟩ | ⟨i, -, ht, rfl⟩⟩ := assign_steps h
  · rw [unplaced] at placed
    cases placed
  obtain ⟨emittable, provides⟩ :=
    (expr_yields (admissible_of_not_reads powers unread) sound).of_ok h₁
  have ext := provides.extends_
  have closed₁ := closed_of_loop ext.loop closed
  obtain ⟨copied, sound₁⟩ := provides.sound.copy closed₁ (target?_lt ht)
    (fun readable => readable a List.mem_cons_self ht) provides.inUse
  have obeyed (ρ : Reg → α) (o : Obeyed past (s₁.copy ((layoutOf law).unknown i) r) False ρ) :
      Obeyed past s₁ False ρ ∧ ρ ((layoutOf law).unknown i) = ρ r := by
    rw [copied] at o
    have all : ∀ j ∈ s₁.pending ++ [⟨(layoutOf law).unknown i, .copy r⟩], j.Holds ρ :=
      fun j hj => o.outer j (List.mem_append_right _ hj)
    obtain ⟨old, new⟩ := List.forall_mem_append.mp all
    refine ⟨⟨o.constants, fun j hj => ?_, False.elim⟩, new _ List.mem_cons_self⟩
    rcases List.mem_append.mp hj with hj | hj
    · exact o.outer j (List.mem_append_left _ hj)
    · exact old j hj
  refine ⟨sound₁.mono ?_, ?_, ?_, ?_, ?_, ?_, ?_, ?_, ?_⟩
  · rintro r (readable | rfl)
    · exact fun b hb => readable b (List.mem_cons_of_mem _ hb)
    · exact fun b hb => ht ▸ (distinct b hb).symm
  · rw [copied]; exact closed₁
  · rw [copied]; exact ext.constants
  · rw [copied]; exact ext.allocated
  · exact fun ρ o => ext.obeyed (obeyed ρ o).1 id
  · rw [copied]; exact ext.next
  · intro j hj
    rw [copied] at hj
    rcases List.mem_append.mp hj with hj | hj
    · exact (ext.written j hj).imp_right .inl
    · rw [List.mem_singleton.mp hj]
      exact .inr (.inr ⟨a, List.mem_cons_self, ht⟩)
  · exact List.forall_mem_singleton.mpr emittable
  · intro b hb t hbt ρ o
    rw [List.mem_singleton.mp hb] at hbt ⊢
    obtain rfl : (layoutOf law).unknown i = t := Option.some.inj (ht.symm.trans hbt)
    obtain ⟨o, same⟩ := obeyed ρ o
    rw [same]
    refine provides.carries ρ ⟨o.constants, o.outer, fun hv => ?_⟩
    rw [provides.sound.closed closed₁] at hv
    exact absurd hv List.not_mem_nil

/-- Assignments are emitted one after the other. -/
theorem forM_assigns (powers : ∀ a ∈ as, a.value.hasIntegralPowers = true)
    (placed : ∀ a ∈ as, (target? law a).isSome = true) (own : ∀ a ∈ as, ¬Reads law a.value a)
    (later : as.Pairwise fun a b => ¬Reads law a.value b)
    (distinct : as.Pairwise fun a b => target? law a ≠ target? law b) (closed : s.body? = none)
    (sound : Sound (registerOf law) (layoutOf law).size (Readable law as) past s)
    (h : as.forM (assign law (registerOf law)) s = .ok ((), s')) : Assigns law past as [] s s' := by
  induction as generalizing s with
  | nil =>
    cases h
    exact ⟨sound, closed, fun _ h => h, fun _ h => .inl h, fun _ h => h, Nat.le_refl _,
      fun _ h => .inl h, fun _ h => absurd h List.not_mem_nil, fun _ h => absurd h List.not_mem_nil⟩
  | cons a as ih =>
    obtain ⟨later_a, later⟩ := List.pairwise_cons.mp later
    obtain ⟨distinct_a, distinct⟩ := List.pairwise_cons.mp distinct
    obtain ⟨own_a, own⟩ := List.forall_mem_cons.mp own
    obtain ⟨powers_a, powers⟩ := List.forall_mem_cons.mp powers
    obtain ⟨placed_a, placed⟩ := List.forall_mem_cons.mp placed
    obtain ⟨_, s₁, h₁, h₂⟩ := bind_eq_ok h
    have head := assign_assigns powers_a placed_a (List.forall_mem_cons.mpr ⟨own_a, later_a⟩)
      distinct_a closed sound h₁
    have tail := ih powers placed own later distinct head.closed head.sound h₂
    refine ⟨tail.sound, tail.closed, ?_, ?_, ?_, head.next.trans tail.next, ?_, ?_, ?_⟩
    · exact fun c hc => tail.constants c (head.constants c hc)
    · intro c hc
      rcases tail.allocated c hc with hc | hc
      · exact head.allocated c hc
      · exact .inr (head.next.trans hc)
    · exact fun ρ o => head.obeyed ρ (tail.obeyed ρ o)
    · intro i hi
      rcases tail.written i hi with hi | hi | ⟨b, hb, hi⟩
      · rcases head.written i hi with hi | hi | ⟨b, hb, hi⟩
        · exact .inl hi
        · exact .inr (.inl hi)
        · exact .inr (.inr ⟨b, List.mem_singleton.mp hb ▸ List.mem_cons_self, hi⟩)
      · exact .inr (.inl (head.next.trans hi))
      · exact .inr (.inr ⟨b, List.mem_cons_of_mem _ hb, hi⟩)
    · exact List.forall_mem_cons.mpr ⟨head.emittable a List.mem_cons_self, tail.emittable⟩
    · refine List.forall_mem_cons.mpr ⟨fun r hr ρ o => ?_, tail.assigned⟩
      exact head.assigned a List.mem_cons_self r hr ρ (tail.obeyed ρ o)

/-! ## Execution -/

/-- Execution of the blocks in front of the assignments: it makes the instructions that are past true, and leaves
alone the constants and whatever is not in use yet. -/
structure Prepares (law : UpdateLaw α) (loops : List Block) (past : List Instruction)
    (s : Emission α) : Prop where
  sound : Sound (registerOf law) (layoutOf law).size (Readable law law.assignments) past s
  closed : s.body? = none
  flushed : s.pending = []
  ends : loops = [] ∨ ∃ front l, loops = front ++ [.newton l]
  run : ∀ (tolerance : α) (budget : Nat) (rs : Registers α), s.next ≤ rs.size →
    (∀ c ∈ s.constants, rs.value c.1 = c.2) →
    let rs' := loops.foldl (fun rs b => b.execute tolerance budget rs) rs
    rs'.size = rs.size ∧ (∀ i ∈ past, i.Holds rs'.value) ∧
      (∀ c ∈ s.constants, rs'.value c.1 = c.2) ∧ ∀ r, s.next ≤ r → rs'.value r = rs.value r

theorem foldl_execute_flush (s : Emission α) (tolerance : α) (budget : Nat) (rs : Registers α) :
    s.flush.1.foldl (fun rs b => b.execute tolerance budget rs) rs = executeAll s.pending rs := by
  unfold Emission.flush
  dsimp only
  split
  · next empty =>
    rw [List.isEmpty_iff.mp empty]
    rfl
  · rfl

theorem prepares_none : Prepares law [] [] (.start (layoutOf law).size : Emission α) where
  sound := sound_start
  closed := rfl
  flushed := rfl
  ends := .inl rfl
  run _ _ _ _ constants := ⟨rfl, fun _ h => absurd h List.not_mem_nil, constants, fun _ _ => rfl⟩

theorem prepares_newton {s₁ : Emission α} {loop : Loop}
    (sound : Sound (registerOf law) (layoutOf law).size (Readable law law.assignments) [] s₁)
    (body : loop.body = s₁.inner)
    (unknowns : ∀ r ∈ loop.unknowns.map (·.1), r < (layoutOf law).size ∧ r ∈ s₁.varying) :
    Prepares law (s₁.flush.1 ++ [.newton loop]) s₁.pending s₁.closeLoop.2.flush.2 where
  sound := sound.closeLoop.flush
  closed := rfl
  flushed := rfl
  ends := .inr ⟨_, _, rfl⟩
  run tolerance budget rs size constants := by
    dsimp only
    rw [List.foldl_append, foldl_execute_flush, List.foldl_cons, List.foldl_nil]
    have run := loop.looped_execute tolerance budget (executeAll s₁.pending rs)
    have front := sound.obeyed_executeAll size constants fun i hi => absurd hi List.not_mem_nil
    rw [body] at run
    obtain ⟨size', obeyed⟩ := sound.obeyed_looped (fun r hr => (unknowns r hr).2)
      (size.trans (size_executeAll ..).ge) front run
    refine ⟨(size_looped run).trans (size_executeAll ..), obeyed.outer, obeyed.constants, ?_⟩
    intro r hr
    have above {i : Instruction} (lt : i.target < s₁.next) : i.target ≠ r :=
      Nat.ne_of_lt (Nat.lt_of_lt_of_le lt hr)
    rw [value_looped run (fun i hi => above (sound.varying_lt _ (sound.inner i hi).2.1))
      fun hi => Nat.not_lt_of_le hr (sound.varying_lt _ (unknowns r hi).2)]
    exact value_executeAll_of_ne (fun i hi => above (sound.outer i hi).1.1) rs

/-- What a program of an ordered law consists of. -/
theorem ofLaw_eq_ok (ordered : Ordered law) {tolerance : α} {p : Program α}
    (h : ofLaw law tolerance = .ok p) :
    ∃ loops past s s', Prepares law loops past s ∧ Assigns law past law.assignments [] s s' ∧
      (law.newton? = none → loops = []) ∧ p.blocks = loops ++ s'.flush.1 ∧
      p.constants = s'.constants ∧ p.registers = s'.next := by
  have admissible : ∀ e ∈ iterated law,
      Admissible (registerOf law) (layoutOf law).size (Readable law law.assignments) e :=
    fun e he => admissible_of_not_reads (ordered.powers e (List.mem_append_left _ he))
      (ordered.iterated e he)
  have powers : ∀ a ∈ law.assignments, a.value.hasIntegralPowers = true := fun a ha =>
    ordered.powers _ (List.mem_append_right _ (List.mem_map_of_mem ha))
  obtain ⟨loops, s, s', front, assigned, rfl⟩ := ofLaw_steps h
  obtain ⟨past, prepares, none⟩ : ∃ past, Prepares law loops past s ∧ (law.newton? = none → loops = []) := by
    unfold iterated at admissible
    rcases front with ⟨hn, rfl, rfl⟩ | ⟨n, hn, front⟩
    · exact ⟨[], prepares_none, fun _ => rfl⟩
    · rw [hn] at admissible
      obtain ⟨s₀, loop, sound, body, unknowns, rfl, rfl⟩ := newtonBlocks_eq_ok admissible front
      exact ⟨_, prepares_newton sound body unknowns, fun none => by rw [none] at hn; cases hn⟩
  exact ⟨loops, past, s, s', prepares, forM_assigns powers ordered.placed ordered.own ordered.later
    ordered.distinct prepares.closed prepares.sound assigned, none, rfl, rfl, rfl⟩

omit [ExactScalar α] in
/-- Behind the last loop there are only straight blocks. -/
theorem rdropWhile_append_flush {loops : List Block}
    (ends : loops = [] ∨ ∃ front l, loops = front ++ [.newton l]) (s : Emission α) :
    (loops ++ s.flush.1).rdropWhile Block.isStraight = loops := by
  have front : loops.rdropWhile Block.isStraight = loops := by
    rcases ends with rfl | ⟨front, l, rfl⟩
    · rfl
    · exact List.rdropWhile_concat_neg _ _ _ Bool.false_ne_true
  unfold Emission.flush
  dsimp only
  split
  · rw [List.append_nil]
    exact front
  · rw [List.rdropWhile_concat_pos _ _ _ rfl]
    exact front

/-- The registers are as many as the program needs, and hold its constants. -/
structure Ready (p : Program α) (rs : Registers α) : Prop where
  size : p.registers ≤ rs.size
  constants : ∀ c ∈ p.constants, rs.value c.1 = c.2

/-- The registers when the last loop has ended. -/
def afterLoops (p : Program α) (budget : Nat) (rs : Registers α) : Registers α :=
  (p.blocks.rdropWhile Block.isStraight).foldl (fun rs b => b.execute p.tolerance budget rs) rs

/-- After a step every assigned unknown has the value of its expression in the registers as they are then, and all
other fixed registers are as they were when the last loop ended. -/
theorem step_spec (ordered : Ordered law) {tolerance : α} {p : Program α}
    (h : ofLaw law tolerance = .ok p) {rs : Registers α} (ready : p.Ready rs) (budget : Nat) :
    (∀ a ∈ law.assignments, a.value.isEmittable (bound (registerOf law)) = true ∧
      ∀ r, target? law a = some r → a.value.value (symbols law (p.step budget rs)) =
        (p.step budget rs).value r) ∧
    (∀ r < (layoutOf law).size, (∀ a ∈ law.assignments, target? law a ≠ some r) →
      (p.step budget rs).value r = (p.afterLoops budget rs).value r) ∧
    (law.newton? = none → p.afterLoops budget rs = rs) ∧
    (p.afterLoops budget rs).size = rs.size := by
  obtain ⟨loops, past, s, s', prepares, assigns, none, blocks, constants, registers⟩ :=
    ofLaw_eq_ok ordered h
  have loops_eq : p.blocks.rdropWhile Block.isStraight = loops := by
    rw [blocks]
    exact rdropWhile_append_flush prepares.ends s'
  have after : p.afterLoops budget rs =
      loops.foldl (fun rs b => b.execute p.tolerance budget rs) rs := by
    unfold afterLoops
    rw [loops_eq]
  have step : p.step budget rs = executeAll s'.pending (p.afterLoops budget rs) := by
    unfold Program.step
    rw [blocks, List.foldl_append, foldl_execute_flush, after]
  obtain ⟨size, before, held, untouched⟩ := prepares.run p.tolerance budget rs
    (assigns.next.trans (registers ▸ ready.size))
    fun c hc => ready.constants c (constants ▸ assigns.constants c hc)
  rw [← after] at size before held untouched
  have obeyed : Obeyed past s' False (executeAll s'.pending (p.afterLoops budget rs)).value :=
    assigns.sound.obeyed_executeAll ((registers ▸ ready.size).trans size.ge) (fun c hc => ?_) before
  · rw [← step] at obeyed
    refine ⟨fun a ha => ⟨assigns.emittable a ha, fun r hr => ?_⟩, fun r hr unassigned => ?_, ?_, size⟩
    · exact assigns.assigned a ha r hr _ obeyed
    · rw [step]
      refine value_executeAll_of_ne (fun i hi => ?_) _
      rcases assigns.written i hi with hi | hi | ⟨a, ha, hi⟩
      · rw [prepares.flushed] at hi
        exact absurd hi List.not_mem_nil
      · exact (Nat.ne_of_lt (Nat.lt_of_lt_of_le hr (prepares.sound.first_le.trans hi))).symm
      · rintro rfl
        exact unassigned a ha hi
    · intro straight
      rw [after, none straight]
      rfl
  · rcases assigns.allocated c hc with old | new
    · exact held c old
    · rw [untouched c.1 new]
      exact ready.constants c (constants ▸ hc)

end

end Program

end AnalogCircuit
