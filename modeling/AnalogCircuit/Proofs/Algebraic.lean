import AnalogCircuit.Proofs.Discretization
import AnalogCircuit.Proofs.Sequence
/-!
# Systems of algebraic equations

The equations of an algebraic system are sums, products and integral powers of constants, symbols, and derivatives
and integrals over the time of such expressions. Discretized, they are rows in whatever unknowns there are. So the
program of the system assigns in sequence, unless elimination has left an unknown in the value of that same
unknown: then a part of this value that mentions it may be computed before it is stored, and read behind it.
-/

namespace AnalogCircuit

variable {α : Type}

/-! ## Algebraic expressions -/

namespace Expr

mutual

/-- Sums, products and integral powers of constants and symbols; derivatives and integrals over the time only if
they are allowed. -/
def isAlgebraic [Scalar α] (inTime : Bool) : Expr α → Bool
  | num _ | sym _ => true
  | sum ts | product ts => isAlgebraicList inTime ts
  | power b (num n) => isAlgebraic inTime b && Scalar.isIntegral n
  | derivative x t | integral x t => inTime && (t == .time && isAlgebraic inTime x)
  | _ => false

/-- Every expression of a list is algebraic. -/
def isAlgebraicList [Scalar α] (inTime : Bool) : List (Expr α) → Bool
  | [] => true
  | e :: es => isAlgebraic inTime e && isAlgebraicList inTime es

end

theorem isAlgebraicList_iff [Scalar α] {inTime : Bool} {es : List (Expr α)} :
    isAlgebraicList inTime es = true ↔ ∀ e ∈ es, isAlgebraic inTime e = true := by
  induction es with
  | nil => exact iff_of_true rfl (List.forall_mem_nil _)
  | cons e es ih =>
    rw [List.forall_mem_cons, ← ih]
    exact Bool.and_eq_true_iff

theorem hereditary_isAlgebraic [Scalar α] (inTime : Bool) :
    Hereditary True fun e : Expr α => isAlgebraic inTime e = true where
  num _ := rfl
  sum _ := isAlgebraicList_iff
  product _ := isAlgebraicList_iff
  power b e := by
    constructor
    · intro h
      cases e with
      | num n =>
        obtain ⟨hb, hn⟩ := Bool.and_eq_true_iff.mp h
        exact ⟨hb, rfl, fun _ => ⟨n, rfl, hn⟩⟩
      | _ => exact nomatch h
    · rintro ⟨hb, -, integral⟩
      obtain ⟨n, rfl, hn⟩ := integral trivial
      exact Bool.and_eq_true_iff.mpr ⟨hb, hn⟩

theorem isAlgebraic_derivative [Scalar α] {inTime : Bool} {x : Expr α} {t : Symbol} :
    isAlgebraic inTime (derivative x t) = true ↔
      inTime = true ∧ t = .time ∧ isAlgebraic inTime x = true :=
  Bool.and_eq_true_iff.trans (and_congr_right' (Bool.and_eq_true_iff.trans (and_congr_left' beq_iff_eq)))

theorem isAlgebraic_integral [Scalar α] {inTime : Bool} {x : Expr α} {t : Symbol} :
    isAlgebraic inTime (integral x t) = true ↔
      inTime = true ∧ t = .time ∧ isAlgebraic inTime x = true :=
  isAlgebraic_derivative

/-- The parts of an algebraic expression are algebraic. -/
theorem isAlgebraic_of_mem_children [Scalar α] {inTime : Bool} {e x : Expr α}
    (h : isAlgebraic inTime e = true) (hx : x ∈ e.children) : isAlgebraic inTime x = true := by
  have closed := hereditary_isAlgebraic (α := α) inTime
  cases e with
  | num _ | sym _ => exact absurd hx List.not_mem_nil
  | sum ts => exact (closed.sum ts).mp h x hx
  | product fs => exact (closed.product fs).mp h x hx
  | power b e =>
    obtain ⟨hb, he, -⟩ := (closed.power b e).mp h
    rcases List.mem_cons.mp hx with rfl | hx
    · exact hb
    · rw [List.mem_singleton.mp hx]; exact he
  | derivative y t | integral y t =>
    rw [List.mem_singleton.mp hx]
    exact (isAlgebraic_derivative.mp h).2.2
  | _ => exact nomatch h

variable [ExactScalar α]

/-- An algebraic expression without operators of time is a row, whatever the unknowns are. -/
theorem isRow_of_isAlgebraic {U : Symbol → Bool} {e : Expr α} (h : isAlgebraic false e = true) :
    IsRow U e := by
  have algebraic := hereditary_isAlgebraic (α := α) false
  have rows := hereditary_isRow (α := α) U
  induction e with
  | num v => exact rows.num v
  | sym s => exact isRow_sym s
  | sum ts ih => exact (rows.sum ts).mpr fun t ht => ih t ht ((algebraic.sum ts).mp h t ht)
  | product fs ih => exact (rows.product fs).mpr fun f hf => ih f hf ((algebraic.product fs).mp h f hf)
  | power b e hb he =>
    obtain ⟨base, exponent, integral⟩ := (algebraic.power b e).mp h
    exact (rows.power b e).mpr ⟨hb base, he exponent, integral⟩
  | _ => exact nomatch h

/-- Rewriting leads to algebraic expressions if the images of symbols and the answers to operators of time are
algebraic, and all operators are answered. -/
theorem isAlgebraic_rewrite {inTime : Bool} {f : Expr α → Option (Expr α)} (leafwise : Leafwise f)
    (symbols : ∀ s, isAlgebraic false ((f (sym s)).getD (sym s)) = true)
    (operators : inTime = true → ∀ x, (∃ r, f (derivative x .time) = some r ∧
      isAlgebraic false r = true) ∧ ∃ r, f (integral x .time) = some r ∧ isAlgebraic false r = true)
    {e : Expr α} (h : isAlgebraic inTime e = true) : isAlgebraic false (rewrite f e) = true := by
  refine rewrite_hereditary (hereditary_isAlgebraic false) (hereditary_isAlgebraic inTime) id leafwise
    (fun e atom h _ => ?_) h
  cases e with
  | num _ | sum _ | product _ | power _ _ => exact atom.elim
  | sym s => rw [rewrite_eq]; exact symbols s
  | derivative x t =>
    obtain ⟨timed, rfl, -⟩ := isAlgebraic_derivative.mp h
    obtain ⟨⟨r, answer, hr⟩, -⟩ := operators timed x
    rw [rewrite_eq, answer]
    exact hr
  | integral x t =>
    obtain ⟨timed, rfl, -⟩ := isAlgebraic_integral.mp h
    obtain ⟨-, r, answer, hr⟩ := operators timed x
    rw [rewrite_eq, answer]
    exact hr
  | _ => exact nomatch h

theorem isAlgebraic_onSymbols {g : Symbol → Option (Expr α)}
    (images : ∀ s, isAlgebraic false (image g s) = true) {e : Expr α}
    (h : isAlgebraic false e = true) : isAlgebraic false (e.rewrite (onSymbols g)) = true :=
  isAlgebraic_rewrite (leafwise_onSymbols g) images (fun h : false = true => nomatch h) h

end Expr

/-! ## Algebraic equations -/

open Expr

/-- Both sides are algebraic. -/
def Equation.isAlgebraic [Scalar α] (inTime : Bool) (q : Equation α) : Bool :=
  q.lhs.isAlgebraic inTime && q.rhs.isAlgebraic inTime

section

variable [ExactScalar α] {system : System α} {step : α}

theorem Equation.isAlgebraic_iff {inTime : Bool} {q : Equation α} :
    q.isAlgebraic inTime = true ↔
      q.lhs.isAlgebraic inTime = true ∧ q.rhs.isAlgebraic inTime = true := by
  rw [Equation.isAlgebraic, Bool.and_eq_true]

/-- Resolving takes the operators of time out of an algebraic expression. -/
theorem isAlgebraic_resolve {states : List (TimeState α)} {e : Expr α}
    (h : e.isAlgebraic true = true) : (resolve states e).isAlgebraic false = true := by
  rw [resolve_eq_rewrite]
  refine isAlgebraic_rewrite (leafwise_atOperators states) (fun s => ?_) (fun _ x => ⟨?_, ?_⟩) h
  · exact (rfl : Expr.isAlgebraic false (sym s : Expr α) = true)
  · exact ⟨_, atOperators_derivative states x, rfl⟩
  · exact ⟨_, atOperators_integral states x, rfl⟩

theorem System.isAlgebraic_previous (system : System α) {e : Expr α} (h : e.isAlgebraic false = true) :
    (system.previous e).isAlgebraic false = true := by
  unfold System.previous
  rw [mapSymbols_eq]
  refine isAlgebraic_onSymbols (fun s => ?_) h
  show Expr.isAlgebraic false (if system.isParameter s then sym s else sym s.previous) = true
  split <;> rfl

/-- The trapezoidal rule of an algebraic operand is algebraic. -/
theorem TimeState.isAlgebraic_rule {s : TimeState α} (h : s.operand.isAlgebraic false = true) :
    (s.rule system step).isAlgebraic false = true := by
  have closed := hereditary_isAlgebraic (α := α) false
  have symbol (u : Symbol) : (sym u : Expr α).isAlgebraic false = true := rfl
  have half (v : α) : (mkNum v).isAlgebraic false = true := by
    rw [mkNum_eq]
    exact closed.num v
  have previous := system.isAlgebraic_previous h
  unfold TimeState.rule
  rw [Equation.isAlgebraic_iff]
  cases s.operator with
  | derivative =>
    exact ⟨closed.sub h previous, closed.mul (half _) (closed.add (symbol _) (symbol _))⟩
  | integral =>
    exact ⟨symbol _, closed.add (symbol _) (closed.mul (half _) (closed.add h previous))⟩

theorem isAlgebraic_atStep {q : Equation α} (h : q.isAlgebraic false = true) :
    (atStep step q).isAlgebraic false = true := by
  have closed := hereditary_isAlgebraic (α := α) false
  have now : (sym .previousTime + mkNum step : Expr α).isAlgebraic false = true := by
    rw [mkNum_eq]
    exact closed.add rfl (closed.num step)
  have replaced {e : Expr α} (h : e.isAlgebraic false = true) :
      (e.replace .time (sym .previousTime + mkNum step)).isAlgebraic false = true := by
    rw [replace_eq]
    refine isAlgebraic_onSymbols (fun s => ?_) h
    rw [image_replace]
    split
    · exact now
    · rfl
  rw [Equation.isAlgebraic_iff] at h ⊢
  exact ⟨replaced h.1, replaced h.2⟩

/-- The discretized equations of an algebraic system are algebraic, and without operators of time. -/
theorem System.isAlgebraic_discretize (algebraic : ∀ q ∈ system.equations, q.isAlgebraic true = true) :
    ∀ q ∈ (system.discretize step).equations, q.isAlgebraic false = true := by
  rw [System.discretize_eq]
  refine List.forall_mem_map.mpr fun q hq => isAlgebraic_atStep ?_
  rcases List.mem_append.mp hq with hq | hq
  · obtain ⟨q, source, rfl⟩ := List.mem_map.mp hq
    obtain ⟨lhs, rhs⟩ := Equation.isAlgebraic_iff.mp (algebraic q source)
    exact Equation.isAlgebraic_iff.mpr ⟨isAlgebraic_resolve lhs, isAlgebraic_resolve rhs⟩
  · obtain ⟨s, hs, rfl⟩ := List.mem_map.mp hq
    obtain ⟨x, hx, operand⟩ := System.operand_timeStates (Q := fun e => e.isAlgebraic true = true)
      (fun e he x hx => isAlgebraic_of_mem_children he hx)
      (fun q hq => Equation.isAlgebraic_iff.mp (algebraic q hq)) hs
    refine TimeState.isAlgebraic_rule ?_
    rw [operand]
    exact isAlgebraic_resolve hx

/-- The unknowns of a discretized system belong to the current sample if those of the system do. -/
theorem System.current_discretize (current : ∀ u ∈ system.unknowns, u.current = u) :
    ∀ u ∈ (system.discretize step).unknowns, u.current = u := by
  rw [System.discretize_eq]
  refine List.forall_mem_append.mpr ⟨current, List.forall_mem_map.mpr fun s hs => ?_⟩
  obtain ⟨name, same, -⟩ := system.numbered_timeStates.fresh s hs
  rw [same]
  rfl

end

/-! ## Sequential assignment -/

/-- The program of an algebraic system leaves the fixed registers as its assignments do, taken one after the other
where the loop has ended, if no assigned value mentions its own unknown. -/
theorem Program.step_sequential [ExactScalar α] {system : System α} {rate tolerance : α}
    {law : UpdateLaw α} {p : Program α}
    (algebraic : ∀ q ∈ system.equations, q.isAlgebraic true = true)
    (current : ∀ u ∈ system.unknowns, u.current = u)
    (solved : UpdateLaw.ofSystem system rate = .ok law)
    (own : ∀ a ∈ law.assignments, a.value.contains a.unknown = false)
    (compiled : ofLaw law tolerance = .ok p) {rs : Registers α} (ready : p.Ready rs) (budget : Nat) :
    ∃ rs', runAssignments law law.assignments (p.afterLoops budget rs) = some rs' ∧
      ∀ r < (layoutOf law).size, rs'.value r = (p.step budget rs).value r := by
  refine step_eq_runAssignments ?_ compiled ready budget
  refine UpdateLaw.ordered_ofSystem solved (System.current_discretize current) (fun q hq => ?_) own
  obtain ⟨lhs, rhs⟩ := Equation.isAlgebraic_iff.mp (System.isAlgebraic_discretize algebraic q hq)
  exact (hereditary_isRow _).sub (isRow_of_isAlgebraic lhs) (isRow_of_isAlgebraic rhs)

/-- A square root of the input, smoothed. -/
def smoothedRoot : System ℚ :=
  let x := Expr.named "x"
  let y := Expr.named "y"
  { unknowns := [.named "x", .named "y"]
    equations := [⟨.mkPow x (.mkNum 2), .named "b"⟩, ⟨.mkDerivative y .time, x - y⟩]
    inputs := [.named "b"]
    parameters := [] }

/-- The registers of a program at first, with the input eight and the previous value one of the first unknown. -/
def Program.excited (p : Program ℚ) : Registers ℚ :=
  (p.registers₀.write (p.layout.input 0) 8).write (p.layout.previousUnknown 0) 1

theorem Program.step_sequential_smoothedRoot :
    ∃ law p, UpdateLaw.ofSystem smoothedRoot 1 = .ok law ∧ ofLaw law 1 = .ok p ∧
      ∃ rs', runAssignments law law.assignments (p.afterLoops 1 p.excited) = some rs' ∧
        ∀ r < (layoutOf law).size, rs'.value r = (p.step 1 p.excited).value r := by
  have conditions : (match UpdateLaw.ofSystem smoothedRoot 1 with
      | .error _ => false
      | .ok law => match ofLaw law 1 with
        | .error _ => false
        | .ok p => decide (∀ a ∈ law.assignments, a.value.contains a.unknown = false) &&
            (decide (p.registers ≤ p.excited.size) &&
              decide (∀ c ∈ p.constants, p.excited.value c.1 = c.2))) = true := by decide +kernel
  cases solved : UpdateLaw.ofSystem smoothedRoot 1 with
  | error e => rw [solved] at conditions; cases conditions
  | ok law =>
    rw [solved] at conditions
    cases compiled : ofLaw law 1 with
    | error e => simp only [compiled] at conditions; cases conditions
    | ok p =>
      simp only [compiled, Bool.and_eq_true, decide_eq_true_eq] at conditions
      obtain ⟨own, size, constants⟩ := conditions
      exact ⟨law, p, rfl, compiled,
        step_sequential (by decide +kernel) (by decide +kernel) solved own compiled ⟨size, constants⟩ 1⟩

/-- Two equations of which the second one does not lose the first unknown's square as long as it is not expanded. -/
def entangled : System ℚ :=
  let x := Expr.named "x"
  let z := Expr.named "z"
  { unknowns := [.named "x", .named "z"]
    equations := [⟨x, .mkNum 2 * z⟩,
      ⟨(x + .one) * (x - .one) - .mkPow x (.mkNum 2) + .one + z, .named "b"⟩]
    inputs := [.named "b"]
    parameters := [] }

/-- Where a value mentions its own unknown, a part of it that was computed before the unknown is stored may be read
behind it: the assignments `z = b/(1 - 8 z + 2 (2 z - 1) + 2 (2 z + 1))` and `x = 2 z` lead from `z = 0` to `x = 16`
for the input eight, but the program leaves `x = 0`. -/
theorem Program.step_ne_runAssignments_entangled :
    ∃ law p rs', UpdateLaw.ofSystem entangled 1 = .ok law ∧ ofLaw law 1 = .ok p ∧
      (∀ q ∈ entangled.equations, q.isAlgebraic true = true) ∧ p.Ready p.excited ∧
      runAssignments law law.assignments (p.afterLoops 1 p.excited) = some rs' ∧
      (∀ a ∈ law.assignments, Regular (symbols law p.excited) a.value ∧
        Regular (symbols law rs') a.value) ∧
      rs'.value (p.layout.unknown 0) = 16 ∧ (p.step 1 p.excited).value (p.layout.unknown 0) = 0 := by
  have outcome : (match UpdateLaw.ofSystem entangled 1 with
      | .error _ => false
      | .ok law => match ofLaw law 1 with
        | .error _ => false
        | .ok p => match runAssignments law law.assignments (p.afterLoops 1 p.excited) with
          | none => false
          | some rs' => decide ((p.registers ≤ p.excited.size ∧
                ∀ c ∈ p.constants, p.excited.value c.1 = c.2) ∧
              (∀ a ∈ law.assignments, Regular (symbols law p.excited) a.value ∧
                Regular (symbols law rs') a.value) ∧
              rs'.value (p.layout.unknown 0) = 16 ∧
              (p.step 1 p.excited).value (p.layout.unknown 0) = 0)) = true := by decide +kernel
  cases solved : UpdateLaw.ofSystem entangled 1 with
  | error e => rw [solved] at outcome; cases outcome
  | ok law =>
    rw [solved] at outcome
    cases compiled : ofLaw law 1 with
    | error e => simp only [compiled] at outcome; cases outcome
    | ok p =>
      simp only [compiled] at outcome
      cases sequential : runAssignments law law.assignments (p.afterLoops 1 p.excited) with
      | none => simp only [sequential] at outcome; cases outcome
      | some rs' =>
        simp only [sequential, decide_eq_true_eq] at outcome
        obtain ⟨⟨size, constants⟩, regular, values⟩ := outcome
        exact ⟨law, p, rs', rfl, compiled, by decide +kernel, ⟨size, constants⟩, sequential, regular,
          values⟩

end AnalogCircuit
