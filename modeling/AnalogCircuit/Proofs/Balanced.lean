import AnalogCircuit.Proofs.Discretization
/-!
# Discretized systems are complete and balanced

Discretization adds one unknown and one equation for every operator of time with its resolved operand, and leaves
neither operators of time nor the time itself in the equations. The operators go when the equations are resolved; the
time goes at last, also in the rules of the new unknowns, where the time of the sample is put in its place.
-/

namespace AnalogCircuit

open Expr

variable {α : Type} [Scalar α]

/-! ## Expressions without operators of time -/

/-- A property that every node has but operators of time, holds everywhere in an expression if it does in the parts. -/
theorem partwise_everywhere {P : Expr α → Prop} (nodes : ∀ n, timeTerm? n = none → P n) :
    Partwise fun e : Expr α => Everywhere P e where
  num v := everywhere_iff.mpr ⟨nodes _ rfl, by simp [children]⟩
  sum ts := by rw [everywhere_iff, and_iff_right (nodes _ rfl), children]
  product fs := by rw [everywhere_iff, and_iff_right (nodes _ rfl), children]
  power b e := by simp [everywhere_iff (e := .power b e), nodes (.power b e) rfl, children]
  call f args := by rw [everywhere_iff, and_iff_right (nodes _ rfl), children]
  apply f args := by rw [everywhere_iff, and_iff_right (nodes _ rfl), children]
  compare c a b := by simp [everywhere_iff (e := .compare c a b), nodes (.compare c a b) rfl, children]
  select c a b := by simp [everywhere_iff (e := .select c a b), nodes (.select c a b) rfl, children]

omit [Scalar α] in
theorem timeTerms_eq_nil_iff {e : Expr α} : e.timeTerms = [] ↔ Everywhere (timeTerm? · = none) e :=
  List.filterMap_eq_nil_iff

theorem partwise_timeTerms : Partwise fun e : Expr α => e.timeTerms = [] := by
  simp only [timeTerms_eq_nil_iff]
  exact partwise_everywhere fun n h => h

variable [Std.LawfulEqCmp (Scalar.order (α := α))] {e : Expr α}

/-- No operator of time is left where all of them are answered without such operators. -/
theorem timeTerms_rewrite {f : Expr α → Option (Expr α)} (leafwise : Leafwise f)
    (images : ∀ s, ((f (sym s)).getD (sym s)).timeTerms = [])
    (answers : ∀ x t r, f (derivative x t) = some r ∨ f (integral x t) = some r → r.timeTerms = [])
    (answered : Everywhere (fun n => f n = none → timeTerm? n = none) e) :
    (rewrite f e).timeTerms = [] := by
  have source := partwise_everywhere (P := fun n => f n = none → timeTerm? n = none) fun n h _ => h
  refine partwise_timeTerms.rewrite source leafwise (fun s _ => images s) (fun x t h ih => ?_)
    (fun x t h ih => ?_) answered
  · obtain ⟨here, parts⟩ := everywhere_iff.mp h
    rw [rewrite_eq]
    cases answer : f (derivative x t) with
    | some r => exact answers x t r (.inl answer)
    | none =>
      have inner := ih (parts x List.mem_cons_self)
      show (mkDerivative _ t).timeTerms = []
      unfold mkDerivative
      split
      · rfl
      · rw [timeTerms_eq, timeTerm?_derivative.mpr (timeTerm?_derivative.mp (here answer))]
        simpa [children] using inner
  · obtain ⟨here, parts⟩ := everywhere_iff.mp h
    rw [rewrite_eq]
    cases answer : f (integral x t) with
    | some r => exact answers x t r (.inr answer)
    | none =>
      have inner := ih (parts x List.mem_cons_self)
      show (integral _ t).timeTerms = []
      rw [timeTerms_eq, timeTerm?_integral.mpr (timeTerm?_integral.mp (here answer))]
      simpa [children] using inner

/-- Resolving answers to every operator of time with a symbol. -/
theorem timeTerms_resolve (states : List (TimeState α)) (e : Expr α) :
    (resolve states e).timeTerms = [] := by
  rw [resolve_eq_rewrite]
  refine timeTerms_rewrite (leafwise_atOperators states) (fun s => rfl) (fun x t r h => ?_)
    (fun n _ unanswered => ?_)
  · rw [atOperators_eq, atOperators_eq] at h
    rcases h with h | h
    all_goals
      obtain ⟨t, -, rfl⟩ := Option.map_eq_some_iff.mp h
      rfl
  · rw [atOperators_eq] at unanswered
    exact Option.map_eq_none_iff.mp unanswered

/-- Replacing symbols adds no operators of time. -/
theorem timeTerms_onSymbols {g : Symbol → Option (Expr α)} (images : ∀ s, (image g s).timeTerms = [])
    (h : e.timeTerms = []) : (e.rewrite (onSymbols g)).timeTerms = [] :=
  timeTerms_rewrite (leafwise_onSymbols g) images onSymbols_operators
    fun n hn _ => timeTerms_eq_nil_iff.mp h n hn

/-! ## Expressions between two samples -/

/-- Neither the time nor an operator of time occurs in the expression. -/
structure Expr.IsTimeless (e : Expr α) : Prop where
  operators : e.timeTerms = []
  time : e.contains .time = false

/-- With the time of the sample in place of the time, nothing is left of the time but the previous sample's. -/
theorem isTimeless_replace (step : α) (h : e.timeTerms = []) :
    IsTimeless (e.replace .time (sym .previousTime + mkNum step)) := by
  have operators := (partwise_timeTerms (α := α)).toHereditary
  have symbols := hereditary_dependsOn (α := α) (· == .time)
  constructor
  · rw [replace_eq]
    refine timeTerms_onSymbols (fun s => ?_) h
    rw [image_replace]
    split
    · exact operators.add rfl (operators.mkNum step)
    · rfl
  · exact contains_replace (symbols.add rfl (symbols.mkNum step)) (.inr rfl)

theorem timeTerms_previous (system : System α) (h : e.timeTerms = []) :
    (system.previous e).timeTerms = [] := by
  unfold System.previous
  rw [mapSymbols_eq]
  refine timeTerms_onSymbols (fun s => ?_) h
  show (if system.isParameter s then sym s else sym s.previous : Expr α).timeTerms = []
  split <;> rfl

/-- The rule of an unknown has no operators of time if its operand has none. -/
theorem TimeState.timeTerms_rule (system : System α) (step : α) {s : TimeState α}
    (h : s.operand.timeTerms = []) :
    (s.rule system step).lhs.timeTerms = [] ∧ (s.rule system step).rhs.timeTerms = [] := by
  have closed := (partwise_timeTerms (α := α)).toHereditary
  have previous := timeTerms_previous system h
  have half := closed.mkNum (step / 2.0)
  have u (v : Symbol) : (sym v : Expr α).timeTerms = [] := rfl
  unfold rule
  cases s.operator with
  | derivative => exact ⟨closed.sub h previous, closed.mul half (closed.add (u _) (u _))⟩
  | integral => exact ⟨u _, closed.add (u _) (closed.mul half (closed.add h previous))⟩

/-! ## Unknowns of pairs -/

/-- A recorded pair has its unknown. -/
theorem exists_unknownOf {states : List (TimeState α)} {p : TimeOperator × Expr α}
    (h : p ∈ states.map TimeState.pair) :
    ∃ s ∈ states, s.pair = p ∧ unknownOf states p.1 p.2 = s.unknown := by
  obtain ⟨s, hs, rfl⟩ := List.mem_map.mp h
  unfold unknownOf
  cases found : states.find? fun r => r.operator == s.pair.1 && r.operand == s.pair.2 with
  | none => exact absurd (List.find?_eq_none.mp found s hs) (by simp [TimeState.pair])
  | some r =>
    have same := List.find?_some found
    rw [Bool.and_eq_true, beq_iff_eq, beq_iff_eq] at same
    exact ⟨r, List.mem_of_find?_eq_some found, Prod.ext same.1 same.2, rfl⟩

/-- Recorded pairs have the same unknown only if they are the same. -/
theorem Numbered.unknownOf_inj {taken : List String} {states : List (TimeState α)}
    (h : Numbered taken states) {p p' : TimeOperator × Expr α} (hp : p ∈ states.map TimeState.pair)
    (hp' : p' ∈ states.map TimeState.pair) :
    unknownOf states p.1 p.2 = unknownOf states p'.1 p'.2 ↔ p = p' := by
  refine ⟨fun same => ?_, fun same => by rw [same]⟩
  obtain ⟨s, hs, rfl, unknown⟩ := exists_unknownOf hp
  obtain ⟨s', hs', rfl, unknown'⟩ := exists_unknownOf hp'
  rw [unknown, unknown'] at same
  rw [List.inj_on_of_nodup_map h.names hs hs' (congrArg Symbol.name same)]

/-! ## Discretized systems -/

/-- What the system between samples is, when new unknowns stand for certain operators and operands: the equations
without operators of time, and a trapezoidal equation for every new unknown. -/
structure System.IsDiscretization (system : System α) (step : α) (states : List (TimeState α))
    (d : Discretization α) : Prop where
  unknowns : d.unknowns = system.unknowns ++ states.map (·.unknown)
  /-- The new unknowns belong to the current sample. -/
  current : ∀ s ∈ states, s.unknown = .named s.unknown.name
  /-- The new names differ from each other, and from those of the system and of the time. -/
  names : (Symbol.time.name :: (system.names ++ states.map (·.unknown.name))).Nodup
  /-- There is one new unknown for an operator and an operand. -/
  pairs : (states.map TimeState.pair).Nodup
  /-- The new unknowns stand for the operators of time in the equations, at any depth, with operands in which the
  operators inside are resolved already. -/
  terms : ∀ p, p ∈ states.map TimeState.pair ↔
    ∃ t ∈ system.timeTerms, p = (t.1, resolve states t.2)
  /-- An operator of time is resolved to an unknown that stands for it. -/
  answered : ∀ t ∈ system.timeTerms, ∃ s ∈ states, s.pair = (t.1, resolve states t.2) ∧
    unknownOf states t.1 (resolve states t.2) = s.unknown
  /-- Equal operators of time share an unknown, different ones do not. -/
  shared : ∀ t ∈ system.timeTerms, ∀ t' ∈ system.timeTerms,
    unknownOf states t.1 (resolve states t.2) = unknownOf states t'.1 (resolve states t'.2) ↔
      t.1 = t'.1 ∧ resolve states t.2 = resolve states t'.2
  /-- As many equations are added as unknowns. -/
  balanced : d.equations.length = system.equations.length + states.length
  timeless : ∀ q ∈ d.equations, q.lhs.IsTimeless ∧ q.rhs.IsTimeless
  /-- The equations of the system come first. -/
  resolved : d.equations.take system.equations.length =
    system.equations.map fun q => atStep step (resolveEquation states q)
  /-- A derivative satisfies `x - x₀ = h/2 (u + u₀)`. -/
  derivatives : ∀ i s, states[i]? = some s → s.operator = .derivative →
    d.equations[system.equations.length + i]? = some (atStep step
      ⟨s.operand - system.previous s.operand,
        .mkNum (step / 2.0) * (.sym s.unknown + .sym s.unknown.previous)⟩)
  /-- An integral satisfies `u = u₀ + h/2 (x + x₀)`. -/
  integrals : ∀ i s, states[i]? = some s → s.operator = .integral →
    d.equations[system.equations.length + i]? = some (atStep step
      ⟨.sym s.unknown, .sym s.unknown.previous +
        .mkNum (step / 2.0) * (s.operand + system.previous s.operand)⟩)

namespace System

variable {system : System α} {step : α}

/-- All equations of a discretized system are free of time. -/
theorem isTimeless_discretize : ∀ q ∈ (system.discretize step).equations,
    q.lhs.IsTimeless ∧ q.rhs.IsTimeless := by
  rw [discretize_eq]
  refine List.forall_mem_map.mpr fun q hq => ?_
  suffices sides : q.lhs.timeTerms = [] ∧ q.rhs.timeTerms = [] from
    ⟨isTimeless_replace step sides.1, isTimeless_replace step sides.2⟩
  rcases List.mem_append.mp hq with hq | hq
  · obtain ⟨q, -, rfl⟩ := List.mem_map.mp hq
    exact ⟨timeTerms_resolve _ _, timeTerms_resolve _ _⟩
  · obtain ⟨s, hs, rfl⟩ := List.mem_map.mp hq
    obtain ⟨t, -, same⟩ := mem_pairs_timeStates.mp (List.mem_map_of_mem hs)
    have operand : s.operand = resolve system.timeStates t.2 := congrArg Prod.snd same
    exact TimeState.timeTerms_rule system step (operand ▸ timeTerms_resolve _ _)

/-- The rules of the new unknowns follow the equations of the system. -/
theorem rule_mem_discretize {i : Nat} {s : TimeState α} (hs : system.timeStates[i]? = some s) :
    (system.discretize step).equations[system.equations.length + i]? =
      some (atStep step (s.rule system step)) := by
  rw [discretize_eq, List.getElem?_map, List.getElem?_append_right (by simp), List.length_map,
    Nat.add_sub_cancel_left, List.getElem?_map, hs]
  rfl

theorem nodup_names_timeStates (distinct : (Symbol.time.name :: system.names).Nodup) :
    (Symbol.time.name :: (system.names ++ system.timeStates.map (·.unknown.name))).Nodup := by
  obtain ⟨time, names⟩ := List.nodup_cons.mp distinct
  have numbered := system.numbered_timeStates
  refine List.nodup_cons.mpr ⟨?_, List.nodup_append.mpr ⟨names, numbered.names, ?_⟩⟩
  · rw [List.mem_append, not_or]
    refine ⟨time, fun mem => ?_⟩
    -- the name of the time has one letter
    obtain ⟨s, hs, same⟩ := List.mem_map.mp mem
    obtain ⟨name, unknown, -, long⟩ := numbered.fresh s hs
    rw [unknown] at same
    have short : name = "t" := same
    rw [short] at long
    exact absurd long (by decide)
  · intro n hn n' hn' same
    obtain ⟨s, hs, rfl⟩ := List.mem_map.mp hn'
    obtain ⟨name, unknown, fresh, -⟩ := numbered.fresh s hs
    rw [same, unknown] at hn
    exact fresh hn

/-- Discretization is fresh, complete and balanced, for every step. -/
theorem isDiscretization_discretize (distinct : (Symbol.time.name :: system.names).Nodup) (step : α) :
    system.IsDiscretization step system.timeStates (system.discretize step) := by
  have numbered := system.numbered_timeStates
  have recorded {t : TimeOperator × Expr α} (ht : t ∈ system.timeTerms) :
      (t.1, resolve system.timeStates t.2) ∈ system.timeStates.map TimeState.pair :=
    mem_pairs_timeStates.mpr ⟨t, ht, rfl⟩
  constructor
  case unknowns => rw [discretize_eq]
  case current =>
    intro s hs
    obtain ⟨name, same, -⟩ := numbered.fresh s hs
    rw [same]
    rfl
  case names => exact nodup_names_timeStates distinct
  case pairs => exact numbered.pairs
  case terms => exact fun p => mem_pairs_timeStates
  case answered => exact fun t ht => exists_unknownOf (recorded ht)
  case shared =>
    intro t ht t' ht'
    exact (numbered.unknownOf_inj (recorded ht) (recorded ht')).trans Prod.mk_inj
  case balanced => rw [discretize_eq]; simp
  case timeless => exact isTimeless_discretize
  case resolved => rw [discretize_eq]; simp
  case derivatives =>
    intro i s hs operator
    rw [rule_mem_discretize hs, TimeState.rule, operator]
  case integrals =>
    intro i s hs operator
    rw [rule_mem_discretize hs, TimeState.rule, operator]

/-- Operators of time inside each other, and sums that are printed like symbols. -/
def lookAlikes : System ℚ :=
  let a := Expr.named "a"
  let b := Expr.named "b"
  let x := Expr.named "x"
  let y := Expr.named "a + b"
  let t := Expr.sym .time
  { unknowns := [.named "x", .named "a + b"]
    equations := [⟨.derivative (a + b) .time + .derivative y .time, x⟩,
      ⟨.derivative (t * x + .derivative (a + b) .time) .time, .integral (.named "p" * y) .time⟩]
    inputs := [.named "a", .named "b"]
    parameters := [⟨.named "p", 2⟩] }

theorem isDiscretization_lookAlikes :
    (lookAlikes.discretize (1 / 2)).unknowns.map (·.name) =
        ["x", "a + b", "D[a + b]", "D[a + b]'", "D[D[a + b]' + t*x]", "I[a + b*p]"] ∧
      lookAlikes.IsDiscretization (1 / 2) lookAlikes.timeStates (lookAlikes.discretize (1 / 2)) :=
  ⟨by decide +kernel, isDiscretization_discretize (by decide +kernel) (1 / 2)⟩

end System

end AnalogCircuit
