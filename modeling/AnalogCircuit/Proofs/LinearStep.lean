import AnalogCircuit.Proofs.LinearSystem
/-!
# A step solves a linear system

The registers that a program leaves are read as a valuation of the symbols. At this valuation the assignments of a
linear law hold; nothing but unknowns has changed, so no divisor has become zero; and since elimination is an
equivalence, all equations of the discretized system hold.
-/

namespace AnalogCircuit

open Expr

variable {α : Type}

/-! ## Registers as valuations -/

/-- What code can be emitted for mentions bound symbols only. -/
theorem Expr.dependsOn_of_isEmittable {bound : Symbol → Bool} {e : Expr α}
    (h : e.isEmittable bound = true) : e.dependsOn (fun s => !bound s) = false := by
  induction e with
  | num v => rfl
  | sym s =>
    show (!bound s) = false
    rw [show bound s = true from h]
    rfl
  | sum ts ih | product ts ih =>
    exact dependsOnList_eq_false_iff.mpr fun t ht => ih t ht (isEmittableList_iff.mp h t ht)
  | call f args ih =>
    obtain ⟨-, h⟩ := Bool.and_eq_true_iff.mp h
    exact dependsOnList_eq_false_iff.mpr fun a ha => ih a ha (isEmittableList_iff.mp h a ha)
  | power a b ha hb | compare c a b ha hb =>
    obtain ⟨h₁, h₂⟩ := Bool.and_eq_true_iff.mp h
    exact Bool.or_eq_false_iff.mpr ⟨ha h₁, hb h₂⟩
  | select c a b hc ha hb =>
    obtain ⟨h₁, h⟩ := Bool.and_eq_true_iff.mp h
    obtain ⟨h₂, h₃⟩ := Bool.and_eq_true_iff.mp h
    exact Bool.or_eq_false_iff.mpr ⟨hc h₁, Bool.or_eq_false_iff.mpr ⟨ha h₂, hb h₃⟩⟩
  | apply _ _ _ | derivative _ _ _ | integral _ _ _ => cases h

namespace Program

variable {law : UpdateLaw α}

/-- The symbol has a register. -/
def isBound (law : UpdateLaw α) (s : Symbol) : Bool := (registerOf law s).isSome

theorem isBound_iff {s : Symbol} : isBound law s = true ↔ ∃ r, (s, r) ∈ symbolTable law := by
  unfold isBound registerOf
  rw [List.lookup_isSome_iff]
  constructor
  · rintro ⟨⟨x, r⟩, h, same⟩
    obtain rfl : s = x := eq_of_beq same
    exact ⟨r, h⟩
  · rintro ⟨r, h⟩
    exact ⟨(s, r), h, beq_self_eq_true s⟩

theorem isBound_previousTime : isBound law .previousTime = true :=
  isBound_iff.mpr ⟨_, mem_symbolTable.mpr (.inr (.inr (.inr ⟨rfl, rfl⟩)))⟩

/-- The symbol is neither bound nor the time. -/
def isLoose (law : UpdateLaw α) (s : Symbol) : Bool := !(isBound law s || s == .time)

theorem isLoose_of_isBound {s : Symbol} (h : isBound law s = true) : isLoose law s = false := by
  unfold isLoose
  rw [h]
  rfl

/-- An unknown of the current sample is read where it is written, unless its name has another role. -/
theorem registerOf_unknown {a : Assignment α} (current : ∀ u ∈ law.unknowns, u.current = u)
    (mem : a.unknown ∈ law.unknowns) (inputs : ∀ x ∈ law.inputs, x.current ≠ a.unknown)
    (parameters : ∀ p ∈ law.parameters, p.symbol ≠ a.unknown) :
    registerOf law a.unknown = target? law a := by
  have now : a.unknown.sample = .current := by
    rw [← current _ mem]
    rfl
  have earlier (s : Symbol) : (a.unknown == s.previous) = false := by
    rw [beq_eq_false_iff_ne]
    intro same
    rw [same] at now
    cases now
  -- neither the time nor a parameter nor an input comes before it in the table
  have time : List.lookup a.unknown [(Symbol.previousTime, (layoutOf law).previousTime)] = none := by
    rw [List.lookup_cons, show Symbol.previousTime = Symbol.time.previous from rfl, earlier]
    rfl
  have parameter : List.lookup a.unknown
      (law.parameters.zipIdx.map fun x => (x.1.symbol, (layoutOf law).parameter x.2)).reverse =
      none := by
    rw [List.lookup_eq_none_iff]
    intro x hx
    obtain ⟨⟨p, i⟩, hp, rfl⟩ := List.mem_map.mp (List.mem_reverse.mp hx)
    have := parameters p (List.mem_of_getElem? (List.mk_mem_zipIdx_iff_getElem?.mp hp))
    exact bne_iff_ne.mpr this.symm
  have input : List.lookup a.unknown (law.inputs.zipIdx.flatMap fun x =>
      [(x.1.current, (layoutOf law).input x.2), (x.1.previous, (layoutOf law).previousInput x.2)]).reverse =
      none := by
    rw [List.lookup_eq_none_iff]
    intro y hy
    obtain ⟨⟨x, i⟩, hx, hy⟩ := List.mem_flatMap.mp (List.mem_reverse.mp hy)
    have other := inputs x (List.mem_of_getElem? (List.mk_mem_zipIdx_iff_getElem?.mp hx))
    rcases List.mem_cons.mp hy with rfl | hy
    · exact bne_iff_ne.mpr other.symm
    · rw [List.mem_singleton.mp hy]
      exact bne_iff_ne.mpr (ne_of_beq_false (earlier x))
  have unknown (l : List (Symbol × Nat)) (h : ∀ x ∈ l, x.1.current = x.1) :
      List.lookup a.unknown (l.flatMap fun x =>
        [(x.1.previous, (layoutOf law).previousUnknown x.2), (x.1.current, (layoutOf law).unknown x.2)]) =
      (List.lookup a.unknown l).map (layoutOf law).unknown := by
    induction l with
    | nil => rfl
    | cons x l ih =>
      obtain ⟨u, i⟩ := x
      obtain ⟨hu, h⟩ := List.forall_mem_cons.mp h
      rw [List.flatMap_cons, List.lookup_append]
      simp only [List.lookup_cons, earlier, show u.current = u from hu, List.lookup_nil]
      by_cases same : a.unknown = u
      · rw [same, beq_self_eq_true]
        rfl
      · rw [beq_eq_false_iff_ne.mpr same]
        exact ih h
  unfold registerOf symbolTable target? placeOf?
  dsimp only
  rw [List.reverse_append, List.reverse_append, List.reverse_append, List.lookup_append,
    List.lookup_append, List.lookup_append, List.reverse_singleton, time, parameter, input,
    Option.none_or, Option.none_or, Option.none_or, List.reverse_flatMap]
  refine unknown _ fun x hx => ?_
  exact current _ (List.mem_of_getElem? (List.mk_mem_zipIdx_iff_getElem?.mp (List.mem_reverse.mp hx)))

section

variable [ExactScalar α]

/-- The values of all symbols in some registers, zero where there is no register. -/
def valuation (law : UpdateLaw α) (rs : Registers α) (s : Symbol) : α := (symbols law rs s).getD 0

/-- Where all symbols have registers, the valuation is what the registers hold. -/
theorem evaluate_valuation (rs : Registers α) {e : Expr α}
    (h : e.dependsOn (!isBound law ·) = false) :
    e.evaluate (total (valuation law rs)) = e.evaluate (symbols law rs) := by
  refine evaluate_congr (fun s hs => ?_) h
  have bound : (registerOf law s).isSome = true := by simpa [isBound] using hs
  obtain ⟨r, hr⟩ := Option.isSome_iff_exists.mp bound
  show some ((Option.map rs.value (registerOf law s)).getD 0) = Option.map rs.value (registerOf law s)
  rw [hr]
  rfl

end

end Program

/-! ## Bound equations -/

namespace System.IsLinear

open Program

variable [ExactScalar α] {system : System α} {step : α} {law : UpdateLaw α}

/-- The law has the symbols of the discretized system. -/
structure Covers (law : UpdateLaw α) (system : System α) (step : α) : Prop where
  unknowns : law.unknowns = (system.discretize step).unknowns
  inputs : law.inputs = system.inputs
  parameters : law.parameters = system.parameters

theorem isBound_unknown (covers : Covers law system step) {u : Symbol}
    (h : u ∈ (system.discretize step).unknowns) : isBound law u.current = true := by
  obtain ⟨i, hi⟩ := List.getElem?_of_mem (covers.unknowns ▸ h)
  exact isBound_iff.mpr ⟨_, mem_symbolTable.mpr (.inl ⟨u, i, hi, .inl ⟨rfl, rfl⟩⟩)⟩

/-- A symbol of the system is bound, unless it is the time. -/
theorem isBound_of_knows (linear : system.IsLinear) (covers : Covers law system step) {s : Symbol}
    (h : system.knows s = true) (other : s ≠ .time) : isBound law s = true := by
  unfold System.knows System.isGiven at h
  simp only [Bool.or_eq_true, List.contains_iff_mem, beq_iff_eq, other, or_false] at h
  rcases h with (h | h) | h
  · rw [← linear.current s (List.mem_append_left _ h)]
    refine isBound_unknown covers ?_
    rw [System.discretize_eq]
    exact List.mem_append_left _ h
  · rw [← linear.current s (List.mem_append_right _ h)]
    obtain ⟨i, hi⟩ := List.getElem?_of_mem (covers.inputs ▸ h)
    exact isBound_iff.mpr ⟨_, mem_symbolTable.mpr (.inr (.inl ⟨s, i, hi, .inl ⟨rfl, rfl⟩⟩))⟩
  · obtain ⟨p, hp, same⟩ := List.any_eq_true.mp h
    obtain ⟨i, hi⟩ := List.getElem?_of_mem (covers.parameters ▸ hp)
    rw [← eq_of_beq same]
    exact isBound_iff.mpr ⟨_, mem_symbolTable.mpr (.inr (.inr (.inl ⟨p, i, hi, rfl, rfl⟩)))⟩

/-- The previous value of a bound symbol is bound, unless it is a parameter. -/
theorem isBound_previous (covers : Covers law system step) {s : Symbol} (h : isBound law s = true)
    (other : system.isParameter s = false) : isBound law s.previous = true := by
  obtain ⟨r, entry⟩ := isBound_iff.mp h
  refine isBound_iff.mpr ?_
  rcases mem_symbolTable.mp entry with ⟨u, i, hi, ⟨rfl, -⟩ | ⟨rfl, -⟩⟩ | ⟨x, i, hi, ⟨rfl, -⟩ | ⟨rfl, -⟩⟩ |
    ⟨p, i, hi, rfl, -⟩ | ⟨rfl, -⟩
  · exact ⟨_, mem_symbolTable.mpr (.inl ⟨u, i, hi, .inr ⟨rfl, rfl⟩⟩)⟩
  · exact ⟨_, mem_symbolTable.mpr (.inl ⟨u, i, hi, .inr ⟨rfl, rfl⟩⟩)⟩
  · exact ⟨_, mem_symbolTable.mpr (.inr (.inl ⟨x, i, hi, .inr ⟨rfl, rfl⟩⟩))⟩
  · exact ⟨_, mem_symbolTable.mpr (.inr (.inl ⟨x, i, hi, .inr ⟨rfl, rfl⟩⟩))⟩
  · have mem : p ∈ system.parameters := covers.parameters ▸ List.mem_of_getElem? hi
    rw [← Bool.not_eq_true] at other
    exact absurd (List.any_eq_true.mpr ⟨p, mem, beq_self_eq_true p.symbol⟩) other
  · exact ⟨_, mem_symbolTable.mpr (.inr (.inr (.inr ⟨rfl, rfl⟩)))⟩

theorem isLoose_of_knows (linear : system.IsLinear) (covers : Covers law system step) {s : Symbol}
    (h : system.knows s = true) : isLoose law s = false := by
  by_cases time : s = .time
  · rw [time, isLoose, beq_self_eq_true, Bool.or_true]
    rfl
  · exact isLoose_of_isBound (linear.isBound_of_knows covers h time)

theorem dependsOn_resolve (linear : system.IsLinear) (covers : Covers law system step) {e : Expr α}
    (h : e.dependsOn (!system.knows ·) = false) :
    (resolve system.timeStates e).dependsOn (isLoose law) = false := by
  have unknown (operator : TimeOperator) (operand : Expr α) :
      isLoose law (unknownOf system.timeStates operator operand) = false := by
    refine isLoose_of_isBound ?_
    unfold unknownOf
    split
    · next s found =>
      have mem : s.unknown ∈ (system.discretize step).unknowns := by
        rw [System.discretize_eq]
        exact List.mem_append_right _ (List.mem_map_of_mem (List.mem_of_find?_eq_some found))
      rw [← linear.current_of_mem mem]
      exact isBound_unknown covers mem
    · exact isBound_previousTime
  rw [resolve_eq_rewrite]
  refine dependsOn_rewrite (leafwise_atOperators _) (fun s hs => ?_) fun x t r answer => ?_
  · refine linear.isLoose_of_knows covers ?_
    simpa using dependsOn_eq_false_iff.mp h s hs
  · unfold atOperators at answer
    rcases answer with answer | answer
    all_goals
      dsimp only at answer
      split at answer
      · cases answer
        exact unknown _ _
      · cases answer

theorem dependsOn_previous (covers : Covers law system step) {e : Expr α}
    (h : e.dependsOn (isLoose law) = false) :
    (system.previous e).dependsOn (isLoose law) = false := by
  unfold System.previous
  rw [mapSymbols_eq]
  refine dependsOn_rewrite (leafwise_onSymbols _) (fun s hs => ?_) onSymbols_operators
  have bound := dependsOn_eq_false_iff.mp h s hs
  show (if system.isParameter s then sym s else sym s.previous : Expr α).dependsOn (isLoose law) = false
  by_cases parameter : system.isParameter s
  · rw [if_pos parameter]
    exact bound
  · rw [if_neg parameter]
    refine isLoose_of_isBound ?_
    by_cases time : s = .time
    · rw [time]
      exact isBound_previousTime
    · refine isBound_previous covers ?_ (by simpa using parameter)
      simpa [isLoose, time] using bound

theorem dependsOn_rule (covers : Covers law system step) {s : TimeState α}
    (mem : s ∈ system.timeStates) (linear : system.IsLinear)
    (h : s.operand.dependsOn (isLoose law) = false) :
    (s.rule system step).lhs.dependsOn (isLoose law) = false ∧
      (s.rule system step).rhs.dependsOn (isLoose law) = false := by
  have closed := hereditary_dependsOn (α := α) (isLoose law)
  have half (v : α) : (mkNum v).dependsOn (isLoose law) = false := by
    rw [mkNum_eq]
    rfl
  have mem : s.unknown ∈ (system.discretize step).unknowns := by
    rw [System.discretize_eq]
    exact List.mem_append_right _ (List.mem_map_of_mem mem)
  have bound := isBound_unknown covers mem
  rw [linear.current_of_mem mem] at bound
  have u : (sym s.unknown : Expr α).dependsOn (isLoose law) = false := isLoose_of_isBound bound
  have u₀ : (sym s.unknown.previous : Expr α).dependsOn (isLoose law) = false := by
    refine isLoose_of_isBound (isBound_previous covers bound ?_)
    rw [← Bool.not_eq_true]
    intro parameter
    exact linear.not_mem_of_isGiven (Bool.or_eq_true_iff.mpr (.inl parameter)) mem
  have previous := dependsOn_previous covers h
  unfold TimeState.rule
  cases s.operator with
  | derivative => exact ⟨closed.sub h previous, closed.mul (half _) (closed.add u u₀)⟩
  | integral => exact ⟨u, closed.add u₀ (closed.mul (half _) (closed.add h previous))⟩

theorem dependsOn_atStep {e : Expr α} (h : e.dependsOn (isLoose law) = false) :
    (e.replace .time (sym .previousTime + mkNum step)).dependsOn (!isBound law ·) = false := by
  refine dependsOn_replace ?_ fun s hs other => ?_
  · have closed := hereditary_dependsOn (α := α) (!isBound law ·)
    have time : (sym .previousTime : Expr α).dependsOn (!isBound law ·) = false := by
      show (!isBound law .previousTime) = false
      rw [isBound_previousTime]
      rfl
    rw [mkNum_eq]
    exact closed.add time (closed.num step)
  · have := dependsOn_eq_false_iff.mp h s hs
    simpa [isLoose, other] using this

/-- The discretized equations mention bound symbols only. -/
theorem dependsOn_discretize (linear : system.IsLinear) (covers : Covers law system step) :
    ∀ q ∈ (system.discretize step).equations,
      q.lhs.dependsOn (!isBound law ·) = false ∧ q.rhs.dependsOn (!isBound law ·) = false := by
  intro q hq
  rw [System.discretize_eq] at hq
  obtain ⟨q, entry, rfl⟩ := List.mem_map.mp hq
  suffices sides : q.lhs.dependsOn (isLoose law) = false ∧ q.rhs.dependsOn (isLoose law) = false from
    ⟨dependsOn_atStep sides.1, dependsOn_atStep sides.2⟩
  rcases List.mem_append.mp entry with hq | hq
  · obtain ⟨q, source, rfl⟩ := List.mem_map.mp hq
    obtain ⟨lhs, rhs⟩ := linear.closed q source
    exact ⟨linear.dependsOn_resolve covers lhs, linear.dependsOn_resolve covers rhs⟩
  · obtain ⟨s, hs, rfl⟩ := List.mem_map.mp hq
    obtain ⟨x, hx, operand⟩ :=
      System.operand_timeStates (fun e he x hx => dependsOn_of_mem_children he hx) linear.closed hs
    refine dependsOn_rule covers hs linear ?_
    rw [operand]
    exact linear.dependsOn_resolve covers hx

end System.IsLinear

/-! ## The step -/

/-- No divisor of the equations is zero, and no coefficient by which the elimination divides. -/
structure System.Divisible [ExactScalar α] (system : System α) (rate : α) (v : Symbol → α) : Prop where
  equations : ∀ q ∈ (system.discretize (1 / rate)).equations,
    Regular (total v) q.lhs ∧ Regular (total v) q.rhs
  pivots : ∀ c ∈ Partition.pivotCoefficients (system.discretize (1 / rate)).unknowns
    ((system.discretize (1 / rate)).equations.map (·.residual)) (UpdateLaw.nominal system),
    c.evaluate (total v) ≠ some 0

/-- Divisors can be checked wherever constants can be compared. -/
instance [ExactScalar α] [DecidableEq α] {system : System α} {rate : α} {v : Symbol → α} :
    Decidable (system.Divisible rate v) :=
  let d := system.discretize (1 / rate)
  decidable_of_iff
    ((∀ q ∈ d.equations, Regular (total v) q.lhs ∧ Regular (total v) q.rhs) ∧
      ∀ c ∈ Partition.pivotCoefficients d.unknowns (d.equations.map Equation.residual)
        (UpdateLaw.nominal system), c.evaluate (total v) ≠ some 0)
    ⟨fun h => ⟨h.1, h.2⟩, fun h => ⟨h.equations, h.pivots⟩⟩

namespace Program

open Partition System.IsLinear

variable [ExactScalar α] {system : System α} {rate tolerance : α} {law : UpdateLaw α}
  {p : Program α} {rs : Registers α}

/-- The discretized equations hold in the registers. -/
def Solves (law : UpdateLaw α) (system : System α) (step : α) (rs : Registers α) : Prop :=
  ∀ q ∈ (system.discretize step).equations,
    ∃ x, q.lhs.evaluate (symbols law rs) = some x ∧ q.rhs.evaluate (symbols law rs) = some x

/-- If registers keep their values unless they are assigned, then all symbols but the unknowns do. -/
theorem symbols_of_others (linear : system.IsLinear) (covers : Covers law system (1 / rate))
    {rs' : Registers α} (others : ∀ r < (layoutOf law).size,
      (∀ a ∈ law.assignments, target? law a ≠ some r) → rs'.value r = rs.value r) :
    ∀ s ∉ law.unknowns, symbols law rs' s = symbols law rs s := by
  intro s hs
  show Option.map rs'.value (registerOf law s) = Option.map rs.value (registerOf law s)
  cases found : registerOf law s with
  | none => rfl
  | some r =>
    refine congrArg some (others r (registerOf_lt found) fun a ha target => hs ?_)
    obtain ⟨i, hi, rfl⟩ := exists_of_target? target
    obtain ⟨u, hu, rfl⟩ := eq_of_registerOf found
    have mem : u ∈ law.unknowns := List.mem_of_getElem? hu
    rwa [linear.current_of_mem (covers.unknowns ▸ mem)]

/-- An assigned unknown has the value of its expression, if its register has. -/
theorem evaluate_assigned (linear : system.IsLinear) (covers : Covers law system (1 / rate))
    {rs' : Registers α} {a : Assignment α} (placed : (target? law a).isSome = true)
    (emittable : a.value.isEmittable (Emit.bound (registerOf law)) = true)
    (assigned : ∀ r, target? law a = some r → a.value.value (symbols law rs') = rs'.value r) :
    a.value.evaluate (total (valuation law rs')) = some (valuation law rs' a.unknown) := by
  obtain ⟨r, target⟩ := Option.isSome_iff_exists.mp placed
  obtain ⟨i, hi, -⟩ := exists_of_target? target
  have member : a.unknown ∈ law.unknowns := List.mem_of_getElem? hi
  have mem : a.unknown ∈ (system.discretize (1 / rate)).unknowns := covers.unknowns ▸ member
  have register : registerOf law a.unknown = some r := by
    rw [← target]
    refine registerOf_unknown (fun u hu => ?_) member (fun x hx same => ?_) fun x hx same => ?_
    · exact linear.current_of_mem (covers.unknowns ▸ hu)
    · rw [covers.inputs] at hx
      rw [linear.current x (List.mem_append_right _ hx)] at same
      exact linear.not_mem_inputs mem (same ▸ hx)
    · rw [covers.parameters] at hx
      refine linear.not_mem_of_isGiven ?_ mem
      rw [← same]
      exact Bool.or_eq_true_iff.mpr (.inl (List.any_eq_true.mpr ⟨x, hx, beq_self_eq_true x.symbol⟩))
  rw [evaluate_valuation rs' (dependsOn_of_isEmittable emittable),
    (Emit.hasValue emittable rs'.value).evaluate_eq, assigned r target]
  refine congrArg some ?_
  show rs'.value r = (Option.map rs'.value (registerOf law a.unknown)).getD 0
  rw [register]
  rfl

/-- The residuals of a discretized linear system are linear rows. -/
theorem isLinear_residuals (linear : system.IsLinear) :
    ∀ r ∈ (system.discretize (1 / rate)).equations.map (·.residual),
      Expr.IsLinear ((system.discretize (1 / rate)).unknowns.contains ·) false r := by
  refine List.forall_mem_map.mpr fun q hq => ?_
  obtain ⟨lhs, rhs⟩ := linear.isLinear_discretize q hq
  exact isLinear_sub lhs rhs

/-- The law of a linear system is ordered. -/
theorem ordered_of_isLinear (linear : system.IsLinear)
    (solved : UpdateLaw.ofSystem system rate = .ok law) : Ordered law := by
  have rows : ∀ r ∈ (system.discretize (1 / rate)).equations.map (·.residual), _ :=
    isLinear_residuals linear
  obtain ⟨pt, found, -, -, -, assignments, -⟩ := UpdateLaw.ofSystem_eq_ok solved
  obtain ⟨own, -⟩ := own_of_isLinear found rows
  refine UpdateLaw.ordered_ofSystem solved (fun u hu => linear.current_of_mem hu) (fun q hq => ?_) ?_
  · exact (rows _ (List.mem_map_of_mem hq)).isRow
  · rwa [assignments]

/-- Where only unknowns have changed, no divisor has become zero. -/
theorem divisible_of_agrees (linear : system.IsLinear) {pt : Partition α}
    (found : ofResiduals (system.discretize (1 / rate)).unknowns
      ((system.discretize (1 / rate)).equations.map (·.residual)) (UpdateLaw.nominal system) = .ok pt)
    {v w : Symbol → α} (agrees : Agrees ((system.discretize (1 / rate)).unknowns.contains ·) v w)
    (divisible : system.Divisible rate v) : system.Divisible rate w := by
  obtain ⟨-, known⟩ := own_of_isLinear found (isLinear_residuals linear)
  constructor
  · intro q hq
    obtain ⟨lhs, rhs⟩ := linear.isLinear_discretize q hq
    obtain ⟨regular_lhs, regular_rhs⟩ := divisible.equations q hq
    exact ⟨regular_of_isPolynomial agrees lhs.isPolynomial regular_lhs,
      regular_of_isPolynomial agrees rhs.isPolynomial regular_rhs⟩
  · intro c hc
    have same : c.evaluate (total w) = c.evaluate (total v) :=
      evaluate_congr (fun s hs => congrArg some (agrees s hs)) (known c hc).free
    rw [same]
    exact divisible.pivots c hc

/-- A law without an iteration has no residuals. -/
theorem residuals_eq_nil {pt : Partition α} {unknowns : List Symbol} {residuals : List (Expr α)}
    {nominal : Symbol → Option α} (found : ofResiduals unknowns residuals nominal = .ok pt)
    (straight : pt.iterated = []) : pt.residuals = [] := by
  obtain ⟨-, -, -, size⟩ := ofResiduals_eq_ok found
  rwa [straight, List.length_nil, List.length_eq_zero_iff] at size

/-- The program of a linear system without an iteration leaves registers in which every equation of the discretized
system holds, and changes no symbol but the unknowns. -/
theorem step_solves (linear : system.IsLinear) (solved : UpdateLaw.ofSystem system rate = .ok law)
    (straight : law.newton? = none) (compiled : ofLaw law tolerance = .ok p) (ready : p.Ready rs)
    (divisible : system.Divisible rate (valuation law rs)) (budget : Nat) :
    Solves law system (1 / rate) (p.step budget rs) ∧
      ∀ s ∉ law.unknowns, symbols law (p.step budget rs) s = symbols law rs s := by
  have ordered := ordered_of_isLinear linear solved
  obtain ⟨pt, found, unknowns, inputs, parameters, assignments, newton⟩ :=
    UpdateLaw.ofSystem_eq_ok solved
  have covers : Covers law system (1 / rate) := ⟨unknowns, inputs, parameters⟩
  obtain ⟨assigned, others, unchanged, -⟩ := step_spec ordered compiled ready budget
  rw [unchanged straight] at others
  have kept := symbols_of_others linear covers others
  have agrees : Agrees ((system.discretize (1 / rate)).unknowns.contains ·) (valuation law rs)
      (valuation law (p.step budget rs)) := by
    intro s hs
    refine congrArg (·.getD 0) (kept s ?_)
    rwa [covers.unknowns, ← List.contains_iff_mem, Bool.not_eq_true]
  have divisible := divisible_of_agrees linear found agrees divisible
  have iterated : pt.iterated = [] := by
    rw [straight] at newton
    split at newton
    · next empty => exact List.isEmpty_iff.mp empty
    · cases newton
  -- the assignments hold and there are no residuals, so all rows vanish
  have vanish : ∀ q ∈ (system.discretize (1 / rate)).equations,
      q.residual.evaluate (total (valuation law (p.step budget rs))) = some 0 := by
    refine List.forall_mem_map.mp ((vanish_iff ?_ found _ ?_ divisible.pivots).mpr ⟨?_, ?_⟩)
    · exact fun r hr => (isLinear_residuals linear r hr).isPolynomial
    · exact List.forall_mem_map.mpr fun q hq =>
        (sub_denotes (divisible.equations q hq).1 (divisible.equations q hq).2).1
    · rw [residuals_eq_nil found iterated]
      exact fun r hr => absurd hr List.not_mem_nil
    · rw [← assignments]
      intro a ha
      obtain ⟨emittable, value⟩ := assigned a ha
      exact evaluate_assigned linear covers (ordered.placed a ha) emittable value
  refine ⟨fun q hq => ?_, kept⟩
  obtain ⟨lhs, rhs⟩ := divisible.equations q hq
  obtain ⟨bound_lhs, bound_rhs⟩ := linear.dependsOn_discretize covers q hq
  have same : q.lhs.value (total (valuation law (p.step budget rs))) =
      q.rhs.value (total (valuation law (p.step budget rs))) := by
    rw [← sub_eq_zero, ← (sub_denotes lhs rhs).2]
    exact value_of_evaluate (vanish q hq)
  refine ⟨q.lhs.value (total (valuation law (p.step budget rs))), ?_, ?_⟩
  · rw [← evaluate_valuation _ bound_lhs, evaluate_eq lhs]
  · rw [← evaluate_valuation _ bound_rhs, evaluate_eq rhs, same]

end Program

end AnalogCircuit
