import AnalogCircuit.Proofs.Discretization
import AnalogCircuit.Proofs.Linear
import AnalogCircuit.Proofs.Sequence
/-!
# Linear systems

In a linear system the unknowns are multiplied by parameters and functions of the time only. Discretized, it is a
system of linear rows; elimination keeps the rows linear, so no value mentions its own unknown, the program assigns
in sequence, and the registers that it leaves satisfy every equation.
-/

namespace AnalogCircuit

variable {α : Type}

/-! ## Elimination of linear rows -/

namespace Partition

open Expr

variable [ExactScalar α] {U : Symbol → Bool} {nominal : Symbol → Option α} {e : Elimination α}
  {u : Symbol}

theorem isLinear_solveFor (hu : U u = true) {row : Expr α} (h : IsLinear U false row) :
    IsLinear U false (solveFor u row) :=
  isLinear_div (isLinear_neg (h.replace hu (isLinear_num 0))) (h.isKnown_diff hu)

/-- The solution of a linear row for an unknown does not mention the unknown. -/
theorem contains_solveFor_self (hu : U u = true) {row : Expr α} (h : IsLinear U false row) :
    (solveFor u row).contains u = false := by
  have closed := hereditary_dependsOn (α := α) (· == u)
  refine closed.div (closed.neg (contains_replace rfl (.inr rfl))) ?_
  exact contains_eq_false hu (h.isKnown_diff hu).free

/-- All rows are linear, and no value mentions its own unknown. -/
structure Straight (unknown : Symbol → Bool) (e : Elimination α) : Prop where
  rows : ∀ r ∈ e.rows, IsLinear unknown false r
  own : ∀ a ∈ e.eliminated, a.value.contains a.unknown = false

theorem Straight.step (h : Straight U e) (hu : U u = true) : Straight U (e.step nominal u) := by
  unfold Elimination.step
  split
  · exact ⟨h.rows, h.own⟩
  next i row found =>
  obtain ⟨pivot, others⟩ := (forall_rows_iff found).mp h.rows
  constructor
  · refine List.forall_mem_map.mpr fun r hr => ?_
    unfold replaceIn
    split
    · exact (others r hr).replace hu (isLinear_solveFor hu pivot)
    · exact others r hr
  · refine List.forall_mem_append.mpr ⟨h.own, List.forall_mem_singleton.mpr ?_⟩
    exact contains_solveFor_self hu pivot

/-- The whole elimination keeps rows linear, and divides by known coefficients only. -/
theorem Straight.foldl {us : List Symbol} (h : Straight U e) (hus : ∀ u ∈ us, U u = true) :
    Straight U (us.foldl (Elimination.step nominal) e) ∧
      ∀ c ∈ e.pivots nominal us, IsKnown U c := by
  induction us generalizing e with
  | nil => exact ⟨h, fun _ h => absurd h List.not_mem_nil⟩
  | cons u us ih =>
    obtain ⟨hu, hus⟩ := List.forall_mem_cons.mp hus
    obtain ⟨straight, pivots⟩ := ih (h.step hu) hus
    refine ⟨straight, ?_⟩
    rw [Elimination.pivots]
    cases found : pivot? nominal u e.rows with
    | none => exact pivots
    | some p =>
      have pivot := ((forall_rows_iff found).mp h.rows).1
      exact List.forall_mem_cons.mpr ⟨pivot.isKnown_diff hu, pivots⟩

/-- No value of a linear system mentions its own unknown, and all pivot coefficients are known. -/
theorem own_of_isLinear {unknowns : List Symbol} {residuals : List (Expr α)} {p : Partition α}
    (found : ofResiduals unknowns residuals nominal = .ok p)
    (rows : ∀ r ∈ residuals, IsLinear (unknowns.contains ·) false r) :
    (∀ a ∈ p.assignments, a.value.contains a.unknown = false) ∧
      ∀ c ∈ pivotCoefficients unknowns residuals nominal, IsKnown (unknowns.contains ·) c := by
  have began : Straight (unknowns.contains ·) (start unknowns residuals) :=
    ⟨fun r hr => rows r (List.mem_filter.mp hr).1, fun _ h => absurd h List.not_mem_nil⟩
  have unknown : ∀ u ∈ linear unknowns residuals, unknowns.contains u = true := fun u hu =>
    List.contains_iff_mem.mpr (List.mem_filter.mp hu).1
  obtain ⟨ended, pivots⟩ : Straight _ (eliminated unknowns residuals nominal) ∧ _ :=
    began.foldl unknown
  obtain ⟨assignments, -⟩ := ofResiduals_eq_ok found
  refine ⟨fun a ha => ended.own a ?_, pivots⟩
  rwa [assignments, List.mem_reverse] at ha

end Partition

/-! ## Linear systems -/

/-- The symbol is a parameter or the time. -/
def System.isGiven (system : System α) (s : Symbol) : Bool := system.isParameter s || s == .time

/-- The symbol has a role in the system. -/
def System.knows (system : System α) (s : Symbol) : Bool :=
  system.unknowns.contains s || system.inputs.contains s || system.isGiven s

/-- Equations in which unknowns are multiplied by functions of parameters and the time only, between symbols that
have different roles. -/
structure System.IsLinear [Scalar α] (system : System α) : Prop where
  equations : ∀ q ∈ system.equations, Expr.IsLinear (!system.isGiven ·) true q.lhs ∧
    Expr.IsLinear (!system.isGiven ·) true q.rhs
  closed : ∀ q ∈ system.equations, q.lhs.dependsOn (!system.knows ·) = false ∧
    q.rhs.dependsOn (!system.knows ·) = false
  current : ∀ s ∈ system.unknowns ++ system.inputs, s.current = s
  given : ∀ u ∈ system.unknowns, system.isGiven u = false
  inputs : ∀ u ∈ system.unknowns, u ∉ system.inputs

namespace System.IsLinear

open Expr

variable [ExactScalar α] {system : System α} {step : α}

/-- An unknown of the discretized system is an unknown of the system or has a new name. -/
theorem mem_discretize {u : Symbol} (h : u ∈ (system.discretize step).unknowns) :
    u ∈ system.unknowns ∨ ∃ name, u = .named name ∧ name ∉ system.names ∧ 1 < name.length := by
  rw [System.discretize_eq] at h
  rcases List.mem_append.mp h with h | h
  · exact .inl h
  · obtain ⟨s, hs, rfl⟩ := List.mem_map.mp h
    exact .inr (system.numbered_timeStates.fresh s hs)

theorem current_of_mem (linear : system.IsLinear) {u : Symbol}
    (h : u ∈ (system.discretize step).unknowns) : u.current = u := by
  rcases mem_discretize h with h | ⟨name, rfl, -⟩
  · exact linear.current u (List.mem_append_left _ h)
  · rfl

/-- What is given is no unknown of the discretized system. -/
theorem not_mem_of_isGiven (linear : system.IsLinear) {s : Symbol} (h : system.isGiven s = true) :
    s ∉ (system.discretize step).unknowns := by
  intro mem
  rcases mem_discretize mem with mem | ⟨name, rfl, fresh, long⟩
  · rw [linear.given s mem] at h
    cases h
  · rcases Bool.or_eq_true_iff.mp h with h | h
    · obtain ⟨p, hp, same⟩ := List.any_eq_true.mp h
      refine fresh (List.mem_map.mpr ⟨.named name, List.mem_append_right _ ?_, rfl⟩)
      exact List.mem_map.mpr ⟨p, hp, eq_of_beq same⟩
    · have time : name = "t" := congrArg Symbol.name (eq_of_beq h)
      rw [time] at long
      exact absurd long (by decide)

/-- No unknown of the discretized system is an input. -/
theorem not_mem_inputs (linear : system.IsLinear) {u : Symbol}
    (h : u ∈ (system.discretize step).unknowns) : u ∉ system.inputs := by
  rcases mem_discretize h with h | ⟨name, rfl, fresh, -⟩
  · exact linear.inputs u h
  · intro mem
    exact fresh (List.mem_map.mpr ⟨_, List.mem_append_left _ (List.mem_append_right _ mem), rfl⟩)

/-- A symbol of the previous sample is known. -/
theorem isKnown_previous (linear : system.IsLinear) (s : Symbol) :
    IsKnown ((system.discretize step).unknowns.contains ·) (sym s.previous : Expr α) := by
  refine isKnown_of_not_mem ?_
  rw [← Bool.not_eq_true, List.contains_iff_mem]
  intro mem
  have := congrArg Symbol.sample (linear.current_of_mem mem)
  cases this

theorem isKnown_of_isGiven (linear : system.IsLinear) {s : Symbol} (h : system.isGiven s = true) :
    IsKnown ((system.discretize step).unknowns.contains ·) (sym s : Expr α) := by
  refine isKnown_of_not_mem ?_
  rw [← Bool.not_eq_true, List.contains_iff_mem]
  exact linear.not_mem_of_isGiven h

/-! ## Discretized linear systems -/

/-- Resolving leads from linear expressions of the system to linear rows. -/
theorem isLinear_resolve (linear : system.IsLinear) {states : List (TimeState α)} {e : Expr α}
    (h : Expr.IsLinear (!system.isGiven ·) true e) :
    Expr.IsLinear ((system.discretize step).unknowns.contains ·) false (resolve states e) := by
  rw [resolve_eq_rewrite]
  refine h.rewrite (leafwise_atOperators states) (fun s => .sym s) (fun s hs => ?_) fun _ x => ?_
  · exact linear.isKnown_of_isGiven (by simpa using hs)
  · exact ⟨⟨_, atOperators_derivative states x, .sym _⟩, _, atOperators_integral states x, .sym _⟩

theorem isLinear_previous (linear : system.IsLinear) {e : Expr α}
    (h : Expr.IsLinear ((system.discretize step).unknowns.contains ·) false e) :
    Expr.IsLinear ((system.discretize step).unknowns.contains ·) false (system.previous e) := by
  unfold System.previous
  rw [mapSymbols_eq]
  refine h.onSymbols (fun s => ?_) (fun s hs => ?_)
  · show Expr.IsLinear _ false (if system.isParameter s then sym s else sym s.previous)
    split
    · exact .sym s
    · exact .sym s.previous
  · show IsKnown _ (if system.isParameter s then sym s else sym s.previous)
    split
    · exact isKnown_of_not_mem hs
    · exact linear.isKnown_previous s

/-- The trapezoidal rule of a linear operand is linear. -/
theorem isLinear_rule (linear : system.IsLinear) {s : TimeState α}
    (h : Expr.IsLinear ((system.discretize step).unknowns.contains ·) false s.operand) :
    Expr.IsLinear ((system.discretize step).unknowns.contains ·) false (s.rule system step).lhs ∧
      Expr.IsLinear ((system.discretize step).unknowns.contains ·) false (s.rule system step).rhs := by
  have half (v : α) : IsKnown ((system.discretize step).unknowns.contains ·) (mkNum v) := by
    rw [mkNum_eq]
    exact (hereditary_isKnown _).num v
  have previous := linear.isLinear_previous h
  unfold TimeState.rule
  cases s.operator with
  | derivative =>
    exact ⟨isLinear_sub h previous, isLinear_mul (half _) (isLinear_add (.sym _) (.sym _))⟩
  | integral =>
    exact ⟨.sym _, isLinear_add (.sym _) (isLinear_mul (half _) (isLinear_add h previous))⟩

theorem isLinear_atStep (linear : system.IsLinear) {e : Expr α}
    (h : Expr.IsLinear ((system.discretize step).unknowns.contains ·) false e) :
    Expr.IsLinear ((system.discretize step).unknowns.contains ·) false
      (e.replace .time (sym .previousTime + mkNum step)) := by
  have now : IsKnown ((system.discretize step).unknowns.contains ·)
      (sym .previousTime + mkNum step : Expr α) := by
    have known := hereditary_isKnown (α := α) ((system.discretize step).unknowns.contains ·)
    rw [mkNum_eq]
    exact known.add (linear.isKnown_previous .time) (known.num step)
  rw [replace_eq]
  refine h.onSymbols (fun s => ?_) (fun s hs => ?_)
  · rw [image_replace]
    split
    · exact .known now
    · exact .sym s
  · rw [image_replace]
    split
    · exact now
    · exact isKnown_of_not_mem hs

/-- The discretized equations of a linear system are linear rows. -/
theorem isLinear_discretize (linear : system.IsLinear) :
    ∀ q ∈ (system.discretize step).equations,
      Expr.IsLinear ((system.discretize step).unknowns.contains ·) false q.lhs ∧
        Expr.IsLinear ((system.discretize step).unknowns.contains ·) false q.rhs := by
  intro q hq
  rw [System.discretize_eq] at hq
  obtain ⟨q, entry, rfl⟩ := List.mem_map.mp hq
  suffices sides : Expr.IsLinear ((system.discretize step).unknowns.contains ·) false q.lhs ∧
      Expr.IsLinear ((system.discretize step).unknowns.contains ·) false q.rhs from
    ⟨linear.isLinear_atStep sides.1, linear.isLinear_atStep sides.2⟩
  rcases List.mem_append.mp entry with hq | hq
  · obtain ⟨q, source, rfl⟩ := List.mem_map.mp hq
    obtain ⟨lhs, rhs⟩ := linear.equations q source
    exact ⟨linear.isLinear_resolve lhs, linear.isLinear_resolve rhs⟩
  · obtain ⟨s, hs, rfl⟩ := List.mem_map.mp hq
    obtain ⟨x, hx, operand⟩ :=
      System.operand_timeStates (fun e he x hx => he.of_mem_children hx) linear.equations hs
    refine linear.isLinear_rule ?_
    rw [operand]
    exact linear.isLinear_resolve hx

end System.IsLinear

end AnalogCircuit
