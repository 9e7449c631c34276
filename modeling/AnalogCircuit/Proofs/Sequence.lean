import AnalogCircuit.Proofs.Law
import AnalogCircuit.Proofs.Precedence
/-!
# Assignments in sequence

What the program of a law computes behind its loop is compared with the law itself: take the assignments in order,
evaluate each value in the registers as they stand, and store it before the next one is evaluated. The two agree if
no expression reads an unknown that is assigned at the same place or later; and that is so if no value mentions its
own unknown, by the order of elimination.
-/

namespace AnalogCircuit

variable {α : Type}

/-! ## Evaluation in sequence -/

namespace Program

/-- Evaluates assignments one after the other, each in the registers that the ones before have left. There is no
result if a value cannot be evaluated. -/
def runAssignments [Scalar α] (law : UpdateLaw α) :
    List (Assignment α) → Registers α → Option (Registers α)
  | [], rs => some rs
  | a :: as, rs => do
    let v ← a.value.evaluate (symbols law rs)
    runAssignments law as (match target? law a with
      | some r => rs.write r v
      | none => rs)

variable [ExactScalar α] {law : UpdateLaw α}

/-- Registers with the values of all assignments are the result of evaluation in sequence. -/
theorem runAssignments_eq {as : List (Assignment α)} {final : Registers α}
    (placed : ∀ a ∈ as, (target? law a).isSome = true) (own : ∀ a ∈ as, ¬Reads law a.value a)
    (later : as.Pairwise fun a b => ¬Reads law a.value b)
    (emittable : ∀ a ∈ as, a.value.isEmittable (Emit.bound (registerOf law)) = true)
    (assigned : ∀ a ∈ as, ∀ r, target? law a = some r →
      a.value.value (symbols law final) = final.value r)
    {rs : Registers α} (size : (layoutOf law).size ≤ rs.size)
    (agree : ∀ r < (layoutOf law).size, Readable law as r → rs.value r = final.value r) :
    ∃ rs', runAssignments law as rs = some rs' ∧
      ∀ r < (layoutOf law).size, rs'.value r = final.value r := by
  induction as generalizing rs with
  | nil => exact ⟨rs, rfl, fun r hr => agree r hr fun a ha => absurd ha List.not_mem_nil⟩
  | cons a as ih =>
    obtain ⟨placed_a, placed⟩ := List.forall_mem_cons.mp placed
    obtain ⟨own_a, own⟩ := List.forall_mem_cons.mp own
    obtain ⟨later_a, later⟩ := List.pairwise_cons.mp later
    obtain ⟨emittable_a, emittable⟩ := List.forall_mem_cons.mp emittable
    obtain ⟨assigned_a, assigned⟩ := List.forall_mem_cons.mp assigned
    obtain ⟨r, hr⟩ := Option.isSome_iff_exists.mp placed_a
    have fixed := target?_lt hr
    -- the value reads only registers that have their final values already
    have same : a.value.evaluate (symbols law rs) = some (final.value r) := by
      rw [← assigned_a r hr, ← (Emit.hasValue emittable_a final.value).evaluate_eq]
      refine Expr.evaluate_congr (p := fun x => !a.value.contains x) (fun x hx => ?_)
        (Expr.dependsOn_eq_false_iff.mpr fun x hx => by rw [hx]; rfl)
      show (registerOf law x).map _ = (registerOf law x).map _
      cases hx' : registerOf law x with
      | none => rfl
      | some y =>
        refine congrArg some (agree y (registerOf_lt hx') fun b hb hy => ?_)
        have reads : Reads law a.value b := ⟨x, by simpa using hx, hx'.trans hy.symm⟩
        rcases List.mem_cons.mp hb with rfl | hb
        · exact own_a reads
        · exact later_a b hb reads
    rw [runAssignments, same, hr]
    refine ih placed own later emittable assigned (size.trans (Registers.size_write ..).ge) ?_
    intro y hy readable
    by_cases h : r = y
    · rw [← h]
      exact Registers.value_write_self (Nat.lt_of_lt_of_le fixed size) _
    · rw [Registers.value_write_of_ne h]
      refine agree y hy (List.forall_mem_cons.mpr ⟨fun hy => h ?_, readable⟩)
      exact Option.some.inj (hr.symm.trans hy)

/-- The program of an ordered law leaves the fixed registers as evaluation in sequence does, begun where the loop has
ended. -/
theorem step_eq_runAssignments (ordered : Ordered law) {tolerance : α} {p : Program α}
    (h : ofLaw law tolerance = .ok p) {rs : Registers α} (ready : p.Ready rs) (budget : Nat) :
    ∃ rs', runAssignments law law.assignments (p.afterLoops budget rs) = some rs' ∧
      ∀ r < (layoutOf law).size, rs'.value r = (p.step budget rs).value r := by
  obtain ⟨assigned, others, -, size⟩ := step_spec ordered h ready budget
  obtain ⟨loops, past, s, s', prepares, assigns, -, -, -, registers⟩ := ofLaw_eq_ok ordered h
  refine runAssignments_eq ordered.placed ordered.own ordered.later (fun a ha => (assigned a ha).1)
    (fun a ha => (assigned a ha).2) ?_ fun r hr readable => (others r hr readable).symm
  rw [size]
  exact assigns.sound.first_le.trans (registers ▸ ready.size)

end Program

/-! ## Laws of systems -/

open Program Expr

/-- What the law of a system consists of. -/
theorem UpdateLaw.ofSystem_eq_ok [Scalar α] {system : System α} {rate : α} {law : UpdateLaw α}
    (h : UpdateLaw.ofSystem system rate = .ok law) :
    let d := system.discretize (1 / rate)
    ∃ p, Partition.ofResiduals d.unknowns (d.equations.map (·.residual)) (nominal system) = .ok p ∧
      law.unknowns = d.unknowns ∧ law.inputs = system.inputs ∧
      law.parameters = system.parameters ∧ law.assignments = p.assignments ∧
      law.newton? = if p.iterated.isEmpty then none else some ⟨p.iterated, p.residuals⟩ := by
  intro d
  unfold ofSystem at h
  change (requireRate rate >>= fun _ => _) = _ at h
  cases hr : requireRate rate with
  | error e => rw [hr] at h; cases h
  | ok _ =>
    rw [hr] at h
    change (Partition.ofResiduals d.unknowns (d.equations.map (·.residual)) (nominal system) >>=
      fun p => _) = _ at h
    cases hp : Partition.ofResiduals d.unknowns (d.equations.map (·.residual)) (nominal system) with
    | error e => rw [hp] at h; cases h
    | ok p =>
      rw [hp] at h
      cases h
      exact ⟨p, rfl, rfl, rfl, rfl, rfl, rfl⟩

/-- The entries of a Jacobian are partial derivatives of residuals. -/
theorem NewtonIteration.exists_of_mem_entries [Scalar α] {n : NewtonIteration α}
    {x : Nat × Nat × Expr α} (h : x ∈ n.entries) :
    ∃ r ∈ n.residuals, ∃ u ∈ n.unknowns, x.2.2 = r.diff u := by
  unfold entries jacobian at h
  obtain ⟨⟨row, i⟩, hrow, h⟩ := List.mem_flatMap.mp h
  obtain ⟨⟨e, j⟩, he, h⟩ := List.mem_filterMap.mp h
  have entry := List.mem_of_getElem? (List.mk_mem_zipIdx_iff_getElem?.mp he)
  obtain ⟨r, hr, rfl⟩ :=
    List.mem_map.mp (List.mem_of_getElem? (List.mk_mem_zipIdx_iff_getElem?.mp hrow))
  obtain ⟨u, hu, rfl⟩ := List.mem_map.mp entry
  refine ⟨r, hr, u, hu, ?_⟩
  dsimp only at h
  split at h
  · cases h
  · cases h; rfl

/-- The register of an unknown at the current sample belongs to no other symbol. -/
theorem Program.eq_of_registerOf {law : UpdateLaw α} {x : Symbol} {i : Nat}
    (found : registerOf law x = some ((layoutOf law).unknown i)) :
    ∃ u, law.unknowns[i]? = some u ∧ x = u.current := by
  have entry := mem_symbolTable.mp (mem_of_registerOf found)
  clear found
  have inside {β : Type} {l : List β} {i : Nat} {b : β} (h : l[i]? = some b) : i < l.length :=
    (List.getElem?_eq_some_iff.mp h).1
  simp only [Layout.unknown, Layout.previousUnknown, Layout.input, Layout.previousInput,
    Layout.parameter, Layout.previousTime, layoutOf] at entry
  rcases entry with ⟨u, j, hj, ⟨rfl, h⟩ | ⟨-, h⟩⟩ | ⟨v, j, hj, ⟨-, h⟩ | ⟨-, h⟩⟩ |
    ⟨p, j, hj, -, h⟩ | ⟨-, h⟩
  · obtain rfl : i = j := Nat.add_left_cancel h
    exact ⟨u, hj, rfl⟩
  all_goals
    try have := inside hj
    have h : (_ : Nat) = _ := h
    omega

/-- An expression that reads the register of an assigned unknown mentions it. -/
theorem Program.contains_of_reads {law : UpdateLaw α} {e : Expr α} {a : Assignment α}
    (current : ∀ u ∈ law.unknowns, u.current = u) (placed : (target? law a).isSome = true)
    (h : Reads law e a) : e.contains a.unknown = true := by
  obtain ⟨x, hx, same⟩ := h
  obtain ⟨r, hr⟩ := Option.isSome_iff_exists.mp placed
  obtain ⟨i, hi, rfl⟩ := exists_of_target? hr
  obtain ⟨u, hu, rfl⟩ := eq_of_registerOf (same.trans hr)
  obtain rfl : a.unknown = u := Option.some.inj (hi.symm.trans hu)
  rwa [current _ (List.mem_of_getElem? hi)] at hx

theorem Program.isSome_target? {law : UpdateLaw α} {a : Assignment α} (h : a.unknown ∈ law.unknowns) :
    (target? law a).isSome = true := by
  obtain ⟨i, hi⟩ := exists_of_placeOf? h
  unfold target?
  rw [hi]
  rfl

/-- Different unknowns have different registers. -/
theorem Program.unknown_eq_of_target? {law : UpdateLaw α} {a b : Assignment α}
    (placed : (target? law a).isSome = true) (same : target? law a = target? law b) :
    a.unknown = b.unknown := by
  obtain ⟨r, hr⟩ := Option.isSome_iff_exists.mp placed
  obtain ⟨i, hi, rfl⟩ := exists_of_target? hr
  obtain ⟨j, hj, other⟩ := exists_of_target? (same.symm.trans hr)
  obtain rfl : i = j := Nat.add_left_cancel other
  exact Option.some.inj (hi.symm.trans hj)

/-- The law of a system whose discretization consists of rows is ordered if no value mentions its own unknown. -/
theorem UpdateLaw.ordered_ofSystem [ExactScalar α] {system : System α} {rate : α} {law : UpdateLaw α}
    (h : UpdateLaw.ofSystem system rate = .ok law)
    (current : ∀ u ∈ (system.discretize (1 / rate)).unknowns, u.current = u)
    (rows : ∀ q ∈ (system.discretize (1 / rate)).equations,
      IsRow ((system.discretize (1 / rate)).unknowns.contains ·) q.residual)
    (own : ∀ a ∈ law.assignments, a.value.contains a.unknown = false) : Program.Ordered law := by
  obtain ⟨p, found, unknowns, -, -, assignments, newton⟩ := ofSystem_eq_ok h
  rw [← unknowns] at found current rows
  rw [assignments] at own
  obtain ⟨values, residuals, order⟩ := Partition.precedence found (List.forall_mem_map.mpr rows) own
  obtain ⟨-, -, iterated_eq, -⟩ := Partition.ofResiduals_eq_ok found
  -- residuals and their derivatives are rows that mention no assigned unknown
  have iterated : ∀ e ∈ Program.iterated law, IsRow (law.unknowns.contains ·) e ∧
      ∀ a ∈ p.assignments, e.contains a.unknown = false := by
    intro e he
    unfold Program.iterated at he
    rw [newton] at he
    split at he
    · next n hn =>
      split at hn
      · cases hn
      cases hn
      rcases List.mem_append.mp he with he | he
      · exact residuals e he
      · obtain ⟨x, hx, rfl⟩ := List.mem_map.mp he
        obtain ⟨r, hr, u, hu, same⟩ := NewtonIteration.exists_of_mem_entries hx
        obtain ⟨row, free⟩ := residuals r hr
        have unknown : law.unknowns.contains u = true := by
          rw [iterated_eq] at hu
          exact List.contains_iff_mem.mpr (List.mem_filter.mp hu).1
        rw [same]
        exact ⟨row.diff unknown, fun a ha =>
          (hereditary_dependsOn (· == a.unknown)).diff unknown row.rational (free a ha)⟩
    · exact absurd he List.not_mem_nil
  have placed (a : Assignment α) (ha : a ∈ p.assignments) : (target? law a).isSome = true :=
    isSome_target? (values a ha).1
  have unread {e : Expr α} {a : Assignment α} (ha : a ∈ p.assignments)
      (free : e.contains a.unknown = false) : ¬Reads law e a := by
    intro reads
    rw [contains_of_reads current (placed a ha) reads] at free
    cases free
  refine ⟨?_, ?_, ?_, ?_, ?_, ?_⟩ <;> rw [assignments]
  · refine List.forall_mem_append.mpr ⟨fun e he => (iterated e he).1.hasIntegralPowers, ?_⟩
    exact List.forall_mem_map.mpr fun a ha => (values a ha).2.hasIntegralPowers
  · exact placed
  · exact order.imp_of_mem fun ha _ h same => h.1 (unknown_eq_of_target? (placed _ ha) same)
  · exact fun e he a ha => unread ha ((iterated e he).2 a ha)
  · exact fun a ha => unread ha (own a ha)
  · exact order.imp_of_mem fun _ hb h => unread hb h.2

end AnalogCircuit
