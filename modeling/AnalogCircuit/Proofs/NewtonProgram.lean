import AnalogCircuit.Proofs.Vanishing
/-!
# Programs iterate by Newton's method

The program of a system that cannot be solved by elimination has one loop. Whatever is in the buffers, it begins with
the previous values of the iterated unknowns, and every correction is a step of Newton's method for the residuals.
-/

namespace AnalogCircuit

open Expr

variable {α : Type}

/-! ## Names -/

/-- The unknowns are symbols of the current sample, and neither inputs nor parameters. -/
structure System.Separates (system : System α) : Prop where
  current : ∀ s ∈ system.unknowns ++ system.inputs, s.current = s
  inputs : ∀ u ∈ system.unknowns, u ∉ system.inputs
  parameters : ∀ u ∈ system.unknowns, system.isParameter u = false

namespace Program

open Partition

variable {law : UpdateLaw α} {n : NewtonIteration α}

section

variable [ExactScalar α] {system : System α} {rate tolerance : α} {p : Program α} {rs : Registers α}

/-- In a system that separates its symbols every iterated unknown is read from the register that the loop writes. -/
theorem readsUnknowns_of_separates (separates : system.Separates) (solved : UpdateLaw.ofSystem system rate = .ok law)
    (known : ∀ u ∈ n.unknowns, u ∈ law.unknowns) : ReadsUnknowns law n := by
  obtain ⟨-, -, unknowns, inputs, parameters, -⟩ := UpdateLaw.ofSystem_eq_ok solved
  have origin {u : Symbol} (hu : u ∈ law.unknowns) :
      u ∈ system.unknowns ∨ ∃ name, u = .named name ∧ name ∉ system.names ∧ 1 < name.length :=
    System.IsLinear.mem_discretize (unknowns ▸ hu)
  intro u hu
  have mem := known u hu
  have register := registerOf_unknown (a := ⟨u, zero⟩) (fun u hu => ?_) mem (fun x hx same => ?_) fun q hq same => ?_
  · rw [register]
    obtain ⟨i, hi⟩ := exists_of_placeOf? mem
    unfold target? registersOf
    rw [hi]
    rfl
  · rcases origin hu with hu | ⟨name, rfl, -⟩
    · exact separates.current u (List.mem_append_left _ hu)
    · rfl
  · rw [inputs] at hx
    rw [separates.current x (List.mem_append_right _ hx)] at same
    subst same
    rcases origin mem with old | ⟨name, rfl, fresh, -⟩
    · exact separates.inputs x old hx
    · exact fresh (List.mem_map.mpr ⟨_, List.mem_append_left _ (List.mem_append_right _ hx), rfl⟩)
  · rw [parameters] at hq
    subst same
    rcases origin mem with old | ⟨name, named, fresh, -⟩
    · have other := separates.parameters q.symbol old
      rw [System.isParameter, List.any_eq_false] at other
      exact other q hq (beq_self_eq_true _)
    · refine fresh (List.mem_map.mpr ⟨q.symbol, List.mem_append_right _ (List.mem_map_of_mem hq), ?_⟩)
      rw [named]
      rfl

end

/-! ## The loop of a program -/

/-- The workspace when the last loop has ended. -/
def runLoops [Scalar α] (p : Program α) (budget : Nat) (w : Workspace α) : Workspace α :=
  (p.blocks.rdropWhile Block.isStraight).foldl (fun w b => b.run p.tolerance budget w) w

variable [ExactScalar α] {system : System α} {rate tolerance : α} {p : Program α} {rs : Registers α}

/-- What loops leave in the registers does not depend on the buffers. -/
theorem runLoops_registers (squared : p.Squared) (budget : Nat) {w : Workspace α} (roomy : p.Roomy w.scratch) :
    (p.runLoops budget w).registers = p.afterLoops budget w.registers :=
  (foldl_run_registers squared budget (fun _ h => (List.rdropWhile_prefix _ _).subset h) roomy).1

/-- The residuals and their derivatives have integral powers. -/
theorem hasIntegralPowers_of_algebraic (algebraic : ∀ r ∈ n.residuals, r.isAlgebraic false = true) :
    ∀ e ∈ n.residuals ++ n.entries.map (·.2.2), e.hasIntegralPowers = true := by
  have row (r : Expr α) (hr : r ∈ n.residuals) : IsRow (n.unknowns.contains ·) r :=
    isRow_of_isAlgebraic (algebraic r hr)
  refine List.forall_mem_append.mpr ⟨fun r hr => (row r hr).hasIntegralPowers, List.forall_mem_map.mpr fun x hx => ?_⟩
  obtain ⟨r, u, hr, hu, same, -⟩ := NewtonIteration.mem_entries.mp hx
  have unknown : n.unknowns.contains u = true := List.contains_iff_mem.mpr (List.mem_of_getElem? hu)
  rw [← same]
  exact ((row r (List.mem_of_getElem? hr)).diff unknown).hasIntegralPowers

/-- The program of an iteration prepares its loop, and executes it. -/
theorem exists_loop (newton : law.newton? = some n) (algebraic : ∀ r ∈ n.residuals, r.isAlgebraic false = true)
    (compiled : ofLaw law tolerance = .ok p) :
    ∃ s l, LoopComputes law n s l ∧ s.next ≤ p.registers ∧ (∀ c ∈ s.constants, c ∈ p.constants) ∧
      ∀ budget rs, p.afterLoops budget rs =
        l.iterate p.tolerance budget (l.begin (executeAll s.pending rs)) := by
  obtain ⟨loops, s₀, s', front, assigned, rfl⟩ := ofLaw_steps compiled
  rcases front with ⟨none, -⟩ | ⟨n', newton', front⟩
  · rw [newton] at none
    cases none
  obtain rfl : n = n' := Option.some.inj (newton.symm.trans newton')
  obtain ⟨past, l', founded, closed, -⟩ := newtonBlocks_grounded front
  obtain ⟨-, later⟩ := forM_grounded founded closed assigned
  obtain ⟨s, l, computes, rfl, rfl⟩ := newtonBlocks_computes (hasIntegralPowers_of_algebraic algebraic) front
  refine ⟨s, l, computes, later.next, later.constants, fun budget rs => ?_⟩
  unfold afterLoops
  rw [rdropWhile_append_flush (.inr ⟨_, l, rfl⟩), List.foldl_append, foldl_execute_flush]
  rfl

/-! ## Newton's method -/

/-- What a loop leaves in the registers for each budget of corrections: it begins with the previous values of the
iterated unknowns, changes no other fixed register, and corrects as Newton's method does. -/
structure NewtonRuns (law : UpdateLaw α) (n : NewtonIteration α) (tolerance : α) (rs : Registers α)
    (ends : Nat → Registers α) : Prop where
  previous : ∀ u ∈ n.unknowns, (ends 0).value (registersOf law u).1 = rs.value (registersOf law u).2
  others : SameBesides law n rs (ends 0)
  corrected : ∀ budget, Corrected law n tolerance budget (ends 0) (ends budget)

/-- If the residuals are affine in the iterated unknowns, the Jacobian can be factored in the beginning and no divisor
is zero wherever the iteration could end, any number of corrections makes all residuals zero. -/
def Vanishes (law : UpdateLaw α) (n : NewtonIteration α) (ends : Nat → Registers α) : Prop :=
  (∀ r ∈ n.residuals, r.IsAffine n.unknowns (valuation law (ends 0))) →
    (∃ residuals jacobian, n.Evaluates (symbols law (ends 0)) residuals jacobian ∧ Factorable n jacobian) →
    ∀ budget, 0 < budget → (∀ b ≤ budget, RegularAt law n (ends b)) → VanishAt law n (ends budget)

variable [LinearOrder α] [OrderedScalar α]

/-- The loop of a compiled system iterates by Newton's method, whatever the history and the buffers are. Affine
residuals vanish if every iterated unknown is read from the register that the loop corrects. -/
theorem newton_corrects (solved : UpdateLaw.ofSystem system rate = .ok law) (newton : law.newton? = some n)
    (algebraic : ∀ r ∈ n.residuals, r.isAlgebraic false = true) (compiled : ofLaw law tolerance = .ok p)
    {w : Workspace α} (ready : p.Ready w.registers) (roomy : p.Roomy w.scratch) :
    NewtonRuns law n p.tolerance w.registers (fun budget => (p.runLoops budget w).registers) ∧
      (ReadsUnknowns law n → Vanishes law n fun budget => (p.runLoops budget w).registers) := by
  have squares := UpdateLaw.square_ofSystem solved
  have proper : Proper law n := ⟨(squares n newton).1, (squares n newton).2⟩
  obtain ⟨s, l, computes, next, constants, after⟩ := exists_loop newton algebraic compiled
  let front := executeAll s.pending w.registers
  have ends (budget : Nat) : (p.runLoops budget w).registers = l.iterate p.tolerance budget (l.begin front) :=
    (runLoops_registers (squared_ofLaw squares compiled) budget roomy).trans (after budget w.registers)
  have size : s.next ≤ w.registers.size := next.trans ready.size
  have running : Running s (l.begin front) :=
    computes.running_begin size fun c hc => ready.constants c (constants c hc)
  have large : s.next ≤ front.size := size.trans (size_executeAll ..).ge
  simp only [ends]
  refine ⟨⟨fun u hu => ?_, fun r fixed other => ?_, fun budget => ?_⟩, ?_⟩
  · refine (computes.value_begin proper large hu).trans (computes.value_front ?_)
    refine Nat.lt_of_lt_of_le (registersOf_lt (proper.known u hu)).2 ?_
    exact Nat.add_le_add_left (Nat.zero_le _) _
  · rw [← computes.registers_eq proper] at other
    exact (Loop.value_begin_of_not_mem other).trans (computes.value_front fixed)
  · exact computes.corrected_iterate proper p.tolerance budget running
  · rintro reads affine ⟨residuals, jacobian, evaluates, factorable⟩ budget positive regular
    obtain ⟨rfl, rfl⟩ := evaluates.unique computes.evaluates
    have bound (r : Expr α) (hr : r ∈ n.residuals) : r.dependsOn (!isBound law ·) = false :=
      dependsOn_of_isEmittable (computes.emittable r (List.mem_append_left _ hr))
    have distinct := nodup_of_factorable proper.square factorable
    exact computes.vanish_iterate proper running ⟨algebraic, bound, affine, distinct, reads, Agrees.refl _ _⟩
      factorable regular (.inl positive)

end Program

/-! ## Affine iterations -/

section

variable [ExactScalar α] {w : Symbol → α} {ℓ : Symbol → Option α} {e f : Expr α} {a b : α}

/-- A named expression has the value of the symbol. -/
theorem denotes_named (name : String) : Denotes (total w) (Expr.named name) (w (.named name)) :=
  ⟨by rw [Expr.named, Regular]; rfl, rfl⟩

theorem Expr.Denotes.add (he : Denotes ℓ e a) (hf : Denotes ℓ f b) : Denotes ℓ (e + f) (a + b) := by
  obtain ⟨he, rfl⟩ := he
  obtain ⟨hf, rfl⟩ := hf
  exact add_denotes he hf

theorem Expr.Denotes.sub (he : Denotes ℓ e a) (hf : Denotes ℓ f b) : Denotes ℓ (e - f) (a - b) := by
  obtain ⟨he, rfl⟩ := he
  obtain ⟨hf, rfl⟩ := hf
  exact sub_denotes he hf

/-- The program that a computation finds for a system is the program of the system. -/
theorem exists_program {β : Type} {system : System α} {rate tolerance : α}
    {f : UpdateLaw α → NewtonIteration α → Program α → β} {b : β}
    (h : ((UpdateLaw.ofSystem system rate).toOption.bind fun law => law.newton?.bind fun n =>
      (Program.ofLaw law tolerance).toOption.map (f law n)) = some b) :
    ∃ law n p, UpdateLaw.ofSystem system rate = .ok law ∧ law.newton? = some n ∧
      Program.ofLaw law tolerance = .ok p ∧ f law n p = b := by
  have ok {ε γ : Type} {x : Except ε γ} {c : γ} (h : x.toOption = some c) : x = .ok c := by
    cases x with
    | error => cases h
    | ok => exact congrArg Except.ok (Option.some.inj h)
  obtain ⟨law, solved, h⟩ := Option.bind_eq_some_iff.mp h
  obtain ⟨n, newton, h⟩ := Option.bind_eq_some_iff.mp h
  obtain ⟨p, compiled, h⟩ := Option.map_eq_some_iff.mp h
  exact ⟨law, n, p, ok solved, newton, ok compiled, h⟩

end

/-- A square has the square of the value. -/
theorem Expr.Denotes.square {ℓ : Symbol → Option ℚ} {e : Expr ℚ} {a : ℚ} (h : Denotes ℓ e a) :
    Denotes ℓ (mkPow e (mkNum 2)) (a ^ 2) := by
  obtain ⟨h, rfl⟩ := h
  have two : Scalar.isIntegral (2 : ℚ) = true ∧ Scalar.toInt (2 : ℚ) = 2 := by decide +kernel
  have power := mkPow_denotes (regular_power.mpr ⟨2, rfl, h, two.1, fun negative => by
    rw [two.2] at negative; omega⟩)
  rwa [value_power h two.1, two.2, ← mkNum_eq] at power

/-- Two unknowns the squares of which cancel, but only when the first equation is expanded. -/
def crossed : System ℚ :=
  let x := Expr.named "x"
  let y := Expr.named "y"
  { unknowns := [.named "x", .named "y"]
    equations := [⟨.mkPow (x + y + .one) (.mkNum 2) - .mkPow (x + y) (.mkNum 2), .named "b"⟩, ⟨x, .mkNum 3 * y⟩]
    inputs := [.named "b"]
    parameters := [] }

/-- The values of the residuals, in which no divisor occurs. -/
theorem crossed_denotes (w : Symbol → ℚ) :
    List.Forall₂ (Denotes (total w)) (crossed.equations.map Equation.residual)
      [(w (.named "x") + w (.named "y") + 1) ^ 2 - (w (.named "x") + w (.named "y")) ^ 2 - w (.named "b"),
        w (.named "x") - 3 * w (.named "y")] := by
  have triple : Denotes (total w) (mkNum 3 * Expr.named "y") (3 * w (.named "y")) := by
    rw [mkNum_eq]
    exact mul_denotes (denotes_num 3).1 (denotes_named "y").1
  have sum := (denotes_named (w := w) "x").add (denotes_named "y")
  exact .cons (((sum.add denotes_one).square.sub sum.square).sub (denotes_named "b"))
    (.cons ((denotes_named "x").sub triple) .nil)

theorem crossed_isAffine (v : Symbol → ℚ) : ∀ r ∈ crossed.equations.map Equation.residual,
    r.IsAffine crossed.unknowns v := by
  have values (w : Symbol → ℚ) := List.forall₂_cons.mp (crossed_denotes w)
  refine List.forall_mem_cons.mpr ⟨?_, List.forall_mem_singleton.mpr ?_⟩
  · refine ⟨1 - v (.named "b"), fun _ => 2, fun w agrees _ => (values w).1.2.trans ?_⟩
    rw [agrees (.named "b") (by decide)]
    simp only [crossed, List.map_cons, List.map_nil, List.sum_cons, List.sum_nil]
    ring
  · refine ⟨0, fun u => if u = .named "x" then 1 else -3, fun w _ _ =>
      (List.forall₂_cons.mp (values w).2).1.2.trans ?_⟩
    simp only [crossed, List.map_cons, List.map_nil, List.sum_cons, List.sum_nil, if_true,
      if_neg (by decide : Symbol.named "y" ≠ .named "x")]
    ring

theorem Program.newton_corrects_crossed :
    ∃ law n p, UpdateLaw.ofSystem crossed 1 = .ok law ∧ law.newton? = some n ∧ ofLaw law 1 = .ok p ∧
      ∃ w : Workspace ℚ, w.registers = p.excited ∧
        NewtonRuns law n p.tolerance w.registers (fun budget => (p.runLoops budget w).registers) ∧
          ∀ budget, 0 < budget → VanishAt law n (p.runLoops budget w).registers := by
  have conditions : ((UpdateLaw.ofSystem crossed 1).toOption.bind fun law => law.newton?.bind fun n =>
      (Program.ofLaw law 1).toOption.map fun p =>
        let ℓ := symbols law (p.runLoops 0 ⟨p.excited, p.workspace.scratch⟩).registers
        decide (n.unknowns = crossed.unknowns ∧ (n.residuals == crossed.equations.map Equation.residual) = true ∧
          (∀ r ∈ n.residuals, r.isAlgebraic false = true) ∧ p.registers ≤ p.excited.size ∧
          (∀ c ∈ p.constants, p.excited.value c.1 = c.2) ∧ evaluateList ℓ n.residuals = some [-5, 1] ∧
          n.jacobian.mapM (evaluateList ℓ) = some [[2, 2], [1, -3]] ∧ Factorable n [[2, 2], [1, -3]])) =
        some true := by decide +kernel
  obtain ⟨law, n, p, solved, newton, compiled, conditions⟩ := exists_program conditions
  obtain ⟨unknowns, residuals, algebraic, size, constants, values, jacobian, factorable⟩ :=
    of_decide_eq_true conditions
  have residuals := eq_of_beq residuals
  obtain ⟨runs, vanish⟩ := newton_corrects solved newton algebraic compiled
    (w := ⟨p.excited, p.workspace.scratch⟩) ⟨size, constants⟩ p.roomy_workspace
  have reads : ReadsUnknowns law n := readsUnknowns_of_separates ⟨by decide, by decide, by decide⟩ solved
    (UpdateLaw.square_ofSystem solved n newton).2
  refine ⟨law, n, p, solved, newton, compiled, _, rfl, runs, fun budget positive =>
    vanish reads ?_ ⟨_, _, ⟨values, jacobian⟩, factorable⟩ budget positive fun b _ => ?_⟩
  · rw [residuals, unknowns]
    exact crossed_isAffine _
  · unfold RegularAt
    rw [residuals]
    intro r hr
    obtain ⟨a, -, regular, -⟩ := (exists_of_forall₂ (crossed_denotes _)).2 r hr
    exact regular

/-- A system the unknown of which is also an input. -/
def shadowed : System ℚ :=
  let x := Expr.named "x"
  { unknowns := [.named "x"]
    equations := [⟨.mkPow (x + .one) (.mkNum 2) - .mkPow x (.mkNum 2), .zero⟩]
    inputs := [.named "x"]
    parameters := [] }

theorem shadowed_denotes (w : Symbol → ℚ) : ∀ r ∈ shadowed.equations.map Equation.residual,
    Denotes (total w) r ((w (.named "x") + 1) ^ 2 - w (.named "x") ^ 2 - 0) :=
  List.forall_mem_singleton.mpr <|
    (((denotes_named "x").add denotes_one).square.sub (denotes_named "x").square).sub denotes_zero

/-- An unknown that is also an input is read from the register of the input, so corrections change no residual: for
the input eight the first one leads from zero to `-17/2`, though the residual `2 x + 1` vanishes at `-1/2`. -/
theorem Program.newton_misses_shadowed :
    ∃ law n p, UpdateLaw.ofSystem shadowed 1 = .ok law ∧ law.newton? = some n ∧ ofLaw law 1 = .ok p ∧
      (∀ r ∈ n.residuals, r.isAlgebraic false = true) ∧
      ∃ w : Workspace ℚ, p.Ready w.registers ∧ p.Roomy w.scratch ∧
        ¬Vanishes law n (fun budget => (p.runLoops budget w).registers) ∧
        estimates law n (p.runLoops 1 w).registers = [-17 / 2] ∧
        ∀ r ∈ n.residuals, r.evaluate (fun _ => some (-17 / 2)) = some (-16) := by
  have conditions : ((UpdateLaw.ofSystem shadowed 1).toOption.bind fun law => law.newton?.bind fun n =>
      (Program.ofLaw law 1).toOption.map fun p =>
        let w := p.workspace.update fun rs => rs.write (p.layout.input 0) 8
        let ℓ := symbols law (p.runLoops 0 w).registers
        decide (n.unknowns = shadowed.unknowns ∧ (n.residuals == shadowed.equations.map Equation.residual) = true ∧
          (∀ r ∈ n.residuals, r.isAlgebraic false = true) ∧ p.registers ≤ w.registers.size ∧
          (∀ c ∈ p.constants, w.registers.value c.1 = c.2) ∧ evaluateList ℓ n.residuals = some [17] ∧
          n.jacobian.mapM (evaluateList ℓ) = some [[2]] ∧ Factorable n [[2]] ∧
          n.residuals.map (·.evaluate (symbols law (p.runLoops 1 w).registers)) = [some 17] ∧
          estimates law n (p.runLoops 1 w).registers = [-17 / 2] ∧
          ∀ r ∈ n.residuals, r.evaluate (fun _ => some (-17 / 2)) = some (-16))) =
        some true := by decide +kernel
  obtain ⟨law, n, p, solved, newton, compiled, conditions⟩ := exists_program conditions
  obtain ⟨unknowns, residuals, algebraic, size, constants, values, jacobian, factorable, ends, estimates⟩ :=
    of_decide_eq_true conditions
  have residuals := eq_of_beq residuals
  refine ⟨law, n, p, solved, newton, compiled, algebraic, _, ⟨size, constants⟩, p.roomy_workspace,
    fun vanishes => ?_, estimates⟩
  have denotes (w : Symbol → ℚ) (r : Expr ℚ) (hr : r ∈ n.residuals) := shadowed_denotes w r (residuals ▸ hr)
  have zero := vanishes (fun r hr => ⟨1, fun _ => 2, fun w _ _ => (denotes w r hr).2.trans ?_⟩)
    ⟨_, _, ⟨values, jacobian⟩, factorable⟩ 1 Nat.one_pos fun b _ r hr => (denotes _ r hr).1
  · rw [List.map_congr_left zero, residuals] at ends
    cases ends
  · rw [unknowns]
    simp only [shadowed, List.map_cons, List.map_nil, List.sum_cons, List.sum_nil]
    ring

end AnalogCircuit
