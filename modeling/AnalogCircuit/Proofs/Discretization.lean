import AnalogCircuit.Proofs.Row
import AnalogCircuit.Transient.Discretization
/-!
# Discretized equations

Discretization numbers the derivatives and integrals as it goes through the equations. Seen from its end, it only
replaces each of them by the unknown that stands for it in the finished list, and rebuilds everything else; so
what holds of rewritten expressions holds of discretized equations.
-/

namespace AnalogCircuit

variable {α : Type}

/-! ## Operators of time -/

/-- The operator of time by which an expression is formed, and its operand. -/
def Expr.timeTerm? : Expr α → Option (TimeOperator × Expr α)
  | .derivative x t => if t = .time then some (.derivative, x) else none
  | .integral x t => if t = .time then some (.integral, x) else none
  | _ => none

@[simp] theorem Expr.timeTerm?_derivative {x : Expr α} {t : Symbol} :
    timeTerm? (.derivative x t) = none ↔ t ≠ .time := by
  rw [timeTerm?]
  split <;> simp [*]

@[simp] theorem Expr.timeTerm?_integral {x : Expr α} {t : Symbol} :
    timeTerm? (.integral x t) = none ↔ t ≠ .time := by
  rw [timeTerm?]
  split <;> simp [*]

/-- The derivatives and integrals over the time in an expression, at any depth. -/
def Expr.timeTerms (e : Expr α) : List (TimeOperator × Expr α) := e.nodes.filterMap timeTerm?

theorem Expr.timeTerms_eq (e : Expr α) :
    e.timeTerms = (timeTerm? e).toList ++ e.children.flatMap timeTerms := by
  unfold timeTerms
  rw [nodes_eq, List.filterMap_cons, List.filterMap_flatMap]
  cases timeTerm? e with
  | none => rfl
  | some t => rfl

/-- The operands of operators of time belong to every class that contains the parts of its members. -/
theorem Expr.forall_mem_timeTerms {Q : Expr α → Prop} (parts : ∀ e, Q e → ∀ x ∈ e.children, Q x)
    {e : Expr α} (he : Q e) : ∀ t ∈ e.timeTerms, Q t.2 := by
  induction e using Expr.children_ind with
  | step e ih =>
    rw [timeTerms_eq, List.forall_mem_append, List.forall_mem_flatMap]
    refine ⟨fun t ht => ?_, fun x hx => ih x hx (parts e he x hx)⟩
    obtain ⟨x, same, operand⟩ : ∃ x ∈ e.children, t.2 = x := by
      cases e with
      | derivative x s | integral x s =>
        rw [Option.mem_toList, timeTerm?] at ht
        split at ht
        · cases ht
          exact ⟨x, List.mem_cons_self, rfl⟩
        · cases ht
      | _ => cases ht
    rw [operand]
    exact parts e he x same

/-! ## Unknowns for operators of time -/

/-- An operator and the operand to which it is applied. -/
def TimeState.pair (s : TimeState α) : TimeOperator × Expr α := (s.operator, s.operand)

section

variable [Scalar α]

/-- The unknown that stands for an operator and its operand in a list; the time of the previous sample if there is
none. -/
def unknownOf (states : List (TimeState α)) (operator : TimeOperator) (operand : Expr α) : Symbol :=
  match states.find? fun s => s.operator == operator && s.operand == operand with
  | some s => s.unknown
  | none => .previousTime

mutual

/-- The expression with the unknowns of a list in place of derivatives and integrals over the time. -/
def resolve (states : List (TimeState α)) : Expr α → Expr α
  | .num v => .num v
  | .sym s => .sym s
  | .sum ts => .mkSum (resolveList states ts)
  | .product fs => .mkProduct (resolveList states fs)
  | .power a b => .mkPow (resolve states a) (resolve states b)
  | .call f args => .mkCall f (resolveList states args)
  | .apply f args => .apply f (resolveList states args)
  | .compare c a b => .mkCompare c (resolve states a) (resolve states b)
  | .select c a b => .mkSelect (resolve states c) (resolve states a) (resolve states b)
  | .derivative x t =>
    if t = .time then .sym (unknownOf states .derivative (resolve states x))
    else .mkDerivative (resolve states x) t
  | .integral x t =>
    if t = .time then .sym (unknownOf states .integral (resolve states x))
    else .mkIntegral (resolve states x) t

/-- Resolves several expressions. -/
def resolveList (states : List (TimeState α)) : List (Expr α) → List (Expr α)
  | [] => []
  | e :: es => resolve states e :: resolveList states es

end

theorem resolveList_eq_map (states : List (TimeState α)) (es : List (Expr α)) :
    resolveList states es = es.map (resolve states) := by
  induction es with
  | nil => rfl
  | cons e es ih => rw [resolveList, ih, List.map_cons]

/-- The unknowns in place of operators of time. -/
def atOperators (states : List (TimeState α)) : Expr α → Option (Expr α)
  | .derivative x t =>
    if t = .time then some (.sym (unknownOf states .derivative (resolve states x))) else none
  | .integral x t =>
    if t = .time then some (.sym (unknownOf states .integral (resolve states x))) else none
  | _ => none

theorem atOperators_eq (states : List (TimeState α)) (e : Expr α) :
    atOperators states e =
      (Expr.timeTerm? e).map fun t => .sym (unknownOf states t.1 (resolve states t.2)) := by
  cases e with
  | derivative x t | integral x t =>
    rw [atOperators, Expr.timeTerm?]
    split <;> rfl
  | _ => rfl

theorem atOperators_derivative (states : List (TimeState α)) (x : Expr α) :
    atOperators states (.derivative x .time) =
      some (.sym (unknownOf states .derivative (resolve states x))) := by
  rw [atOperators, if_pos rfl]

theorem atOperators_integral (states : List (TimeState α)) (x : Expr α) :
    atOperators states (.integral x .time) =
      some (.sym (unknownOf states .integral (resolve states x))) := by
  rw [atOperators, if_pos rfl]

theorem leafwise_atOperators (states : List (TimeState α)) : Expr.Leafwise (atOperators states) :=
  ⟨fun _ => rfl, fun _ => rfl, fun _ => rfl, fun _ _ => rfl, fun _ _ => rfl, fun _ _ => rfl,
    fun _ _ _ => rfl, fun _ _ _ => rfl⟩

/-- Resolving is rewriting. -/
theorem resolve_eq_rewrite (states : List (TimeState α)) (e : Expr α) :
    resolve states e = e.rewrite (atOperators states) := by
  have list {es : List (Expr α)}
      (ih : ∀ e ∈ es, resolve states e = e.rewrite (atOperators states)) :
      resolveList states es = es.map (Expr.rewrite (atOperators states)) := by
    rw [resolveList_eq_map]
    exact List.map_congr_left ih
  rw [Expr.rewrite_eq]
  induction e with
  | num v => rfl
  | sym s => rfl
  | sum ts ih =>
    rw [resolve, list fun t ht => (ih t ht).trans (Expr.rewrite_eq ..).symm]
    rfl
  | product fs ih =>
    rw [resolve, list fun f hf => (ih f hf).trans (Expr.rewrite_eq ..).symm]
    rfl
  | power a b ha hb =>
    rw [resolve, ha, hb, ← Expr.rewrite_eq, ← Expr.rewrite_eq]
    rfl
  | call f args ih =>
    rw [resolve, list fun a ha => (ih a ha).trans (Expr.rewrite_eq ..).symm]
    rfl
  | apply f args ih =>
    rw [resolve, list fun a ha => (ih a ha).trans (Expr.rewrite_eq ..).symm]
    rfl
  | compare c a b ha hb =>
    rw [resolve, ha, hb, ← Expr.rewrite_eq, ← Expr.rewrite_eq]
    rfl
  | select c a b hc ha hb =>
    rw [resolve, hc, ha, hb, ← Expr.rewrite_eq, ← Expr.rewrite_eq, ← Expr.rewrite_eq]
    rfl
  | derivative x t ih =>
    rw [resolve, atOperators]
    split
    · rfl
    · rw [ih, ← Expr.rewrite_eq]
      rfl
  | integral x t ih =>
    rw [resolve, atOperators]
    split
    · rfl
    · rw [ih, ← Expr.rewrite_eq]
      rfl

end

/-! ## Fresh names -/

theorem freshName_not_mem (taken : List String) (name : String) : freshName taken name ∉ taken := by
  fun_induction freshName taken name with
  | case1 name taken_name ih => exact ih
  | case2 name free => exact free

theorem length_le_freshName (taken : List String) (name : String) :
    name.length ≤ (freshName taken name).length := by
  fun_induction freshName taken name with
  | case1 name taken_name ih =>
    rw [String.length_append] at ih
    omega
  | case2 name free => exact Nat.le_refl _

/-! ## Elimination resolves -/

section

variable [Scalar α] {taken : List String}

/-- Asking loses no record. -/
theorem prefix_stateUnknown (taken : List String) (operator : TimeOperator) (operand : Expr α)
    (states : List (TimeState α)) : states <+: (stateUnknown taken operator operand states).2 := by
  unfold stateUnknown
  split
  · exact List.prefix_rfl
  · exact List.prefix_append _ _

/-- An action that changes the record by asking for unknowns only, that asks for the unknowns of some operators of
time, and whose result is known from every longer record. -/
structure Resolves {β : Type} (taken : List String) (m : Discretizing α β)
    (f : List (TimeState α) → β) (terms : List (TimeOperator × Expr α)) : Prop where
  keeps {I : List (TimeState α) → Prop}
    (asking : ∀ operator operand states, I states → I (stateUnknown taken operator operand states).2)
    {states : List (TimeState α)} (h : I states) : I (m states).2
  result {states later : List (TimeState α)} (longer : (m states).2 <+: later) : (m states).1 = f later
  pairs {states later : List (TimeState α)} (longer : (m states).2 <+: later)
    (p : TimeOperator × Expr α) : p ∈ (m states).2.map TimeState.pair ↔
      p ∈ states.map TimeState.pair ∨ ∃ t ∈ terms, p = (t.1, resolve later t.2)

namespace Resolves

variable {β γ : Type} {m : Discretizing α β} {f : List (TimeState α) → β}
  {terms : List (TimeOperator × Expr α)}

theorem grows (h : Resolves taken m f terms) (states : List (TimeState α)) :
    states <+: (m states).2 :=
  h.keeps (fun _ _ _ longer => longer.trans (prefix_stateUnknown _ _ _ _)) List.prefix_rfl

theorem pure (b : β) : Resolves taken (pure b : Discretizing α β) (fun _ => b) [] where
  keeps _ _ h := h
  result _ := rfl
  pairs {_ later} _ p := by
    have nothing : ¬ ∃ t ∈ ([] : List (TimeOperator × Expr α)), p = (t.1, resolve later t.2) := by simp
    exact (or_iff_left nothing).symm

theorem bind {k : β → Discretizing α γ} {g : β → List (TimeState α) → γ}
    {terms' : List (TimeOperator × Expr α)} (h : Resolves taken m f terms)
    (hk : ∀ b, Resolves taken (k b) (g b) terms') :
    Resolves taken (m >>= k) (fun l => g (f l) l) (terms ++ terms') where
  keeps {_} asking {_} kept := (hk _).keeps asking (h.keeps asking kept)
  result {states later} longer := by
    rw [← h.result (((hk _).grows _).trans longer)]
    exact (hk _).result longer
  pairs {states later} longer p := by
    have first : p ∈ (m states).2.map TimeState.pair ↔
        p ∈ states.map TimeState.pair ∨ ∃ t ∈ terms, p = (t.1, resolve later t.2) :=
      h.pairs (((hk _).grows _).trans longer) p
    refine ((hk _).pairs longer p).trans ?_
    rw [first, or_assoc, ← exists_or]
    simp only [List.mem_append, or_and_right]

theorem map (h : Resolves taken m f terms) (g : β → γ) :
    Resolves taken (m >>= fun b => Pure.pure (g b)) (fun l => g (f l)) terms := by
  rw [← List.append_nil terms]
  exact h.bind fun b => .pure (g b)

end Resolves

variable [Std.LawfulEqCmp (Scalar.order (α := α))]

/-- The unknown for an operator and its operand is the one that is recorded for them already, or it has a new name and
is recorded now. -/
theorem stateUnknown_cases (taken : List String) (operator : TimeOperator) (operand : Expr α)
    (states : List (TimeState α)) :
    (∃ s, states.find? (fun s => s.operator == operator && s.operand == operand) = some s ∧
      s.pair = (operator, operand) ∧ stateUnknown taken operator operand states = (s.unknown, states)) ∨
    (operator, operand) ∉ states.map TimeState.pair ∧
      ∃ name, name ∉ taken ++ states.map (·.unknown.name) ∧ 1 < name.length ∧
        stateUnknown taken operator operand states =
          (.named name, states ++ [⟨operator, operand, .named name⟩]) := by
  unfold stateUnknown
  cases found : states.find? fun s => s.operator == operator && s.operand == operand with
  | some s =>
    have same := List.find?_some found
    rw [Bool.and_eq_true, beq_iff_eq, beq_iff_eq] at same
    exact .inl ⟨s, rfl, Prod.ext same.1 same.2, rfl⟩
  | none =>
    refine .inr ⟨?_, _, freshName_not_mem _ _, ?_, rfl⟩
    · intro recorded
      obtain ⟨s, hs, same⟩ := List.mem_map.mp recorded
      cases same
      exact List.find?_eq_none.mp found s hs (by simp)
    · refine Nat.lt_of_lt_of_le ?_ (length_le_freshName _ _)
      have letter : operator.letter.length = 1 := by cases operator <;> rfl
      have bracket : "[".length = 1 := rfl
      simp only [String.length_append, letter]
      omega

/-- The recorded pairs are distinct, and so are their unknowns, whose names were not taken. -/
structure Numbered (taken : List String) (states : List (TimeState α)) : Prop where
  pairs : (states.map TimeState.pair).Nodup
  names : (states.map (·.unknown.name)).Nodup
  fresh : ∀ s ∈ states, ∃ name, s.unknown = .named name ∧ name ∉ taken ∧ 1 < name.length

theorem Numbered.stateUnknown {states : List (TimeState α)} (h : Numbered taken states)
    (operator : TimeOperator) (operand : Expr α) :
    Numbered taken (stateUnknown taken operator operand states).2 := by
  rcases stateUnknown_cases taken operator operand states with
    ⟨s, -, -, asked⟩ | ⟨unrecorded, name, free, long, asked⟩
  · rw [asked]
    exact h
  rw [asked]
  rw [List.mem_append, not_or] at free
  constructor
  · rw [List.map_append, List.map_singleton]
    refine List.nodup_append.mpr ⟨h.pairs, List.nodup_singleton _, fun p hp p' hp' same => ?_⟩
    rw [same, List.mem_singleton.mp hp'] at hp
    exact unrecorded hp
  · rw [List.map_append, List.map_singleton]
    refine List.nodup_append.mpr ⟨h.names, List.nodup_singleton _, fun n hn n' hn' same => ?_⟩
    rw [same, List.mem_singleton.mp hn'] at hn
    exact free.2 hn
  · refine List.forall_mem_append.mpr ⟨h.fresh, List.forall_mem_singleton.mpr ?_⟩
    exact ⟨name, rfl, free.1, long⟩

/-- Asking for an unknown records its pair. -/
theorem mem_pairs_stateUnknown {states : List (TimeState α)} {operator : TimeOperator}
    {operand : Expr α} {p : TimeOperator × Expr α} :
    p ∈ (stateUnknown taken operator operand states).2.map TimeState.pair ↔
      p ∈ states.map TimeState.pair ∨ p = (operator, operand) := by
  rcases stateUnknown_cases taken operator operand states with
    ⟨s, found, same, asked⟩ | ⟨-, name, -, -, asked⟩
  · have recorded : s.pair ∈ states.map TimeState.pair :=
      List.mem_map_of_mem (List.mem_of_find?_eq_some found)
    rw [asked]
    refine ⟨.inl, fun h => h.elim id ?_⟩
    rintro rfl
    exact same ▸ recorded
  · rw [asked, List.map_append, List.mem_append, List.map_singleton, List.mem_singleton]
    rfl

/-- The unknown asked for is found in every longer record. -/
theorem stateUnknown_eq {states later : List (TimeState α)} {operator : TimeOperator}
    {operand : Expr α} (longer : (stateUnknown taken operator operand states).2 <+: later) :
    (stateUnknown taken operator operand states).1 = unknownOf later operator operand := by
  obtain ⟨rest, rfl⟩ := longer
  unfold stateUnknown unknownOf
  cases found : states.find? fun s => s.operator == operator && s.operand == operand with
  | some s =>
    dsimp only
    rw [List.find?_append, found]
    rfl
  | none =>
    dsimp only
    rw [List.find?_append, List.find?_append, found, Option.none_or, List.find?_cons_of_pos (by simp)]
    rfl

/-- An operator of time is replaced by its unknown, once its operand is resolved. -/
theorem Resolves.operator {x : Expr α} {terms : List (TimeOperator × Expr α)}
    (h : Resolves taken (eliminate taken x) (fun l => resolve l x) terms) (operator : TimeOperator) :
    Resolves taken (eliminate taken x >>= fun y => stateUnknown taken operator y >>= fun u =>
      Pure.pure (Expr.sym u : Expr α)) (fun l => .sym (unknownOf l operator (resolve l x)))
      ((operator, x) :: terms) where
  keeps {_} asking {_} kept := asking _ _ _ (h.keeps asking kept)
  result {states later} longer := by
    rw [← h.result ((prefix_stateUnknown taken operator _ _).trans longer)]
    exact congrArg Expr.sym (stateUnknown_eq longer)
  pairs {states later} longer p := by
    have longer' := (prefix_stateUnknown taken operator _ _).trans longer
    refine mem_pairs_stateUnknown.trans ?_
    rw [h.pairs longer', h.result longer', List.exists_mem_cons_iff, or_assoc, or_comm (b := p = _)]

/-- Elimination resolves an expression, and asks for the unknown of every operator of time in it. -/
theorem eliminate_resolves (e : Expr α) :
    Resolves taken (eliminate taken e) (fun l => resolve l e) e.timeTerms := by
  have list {es : List (Expr α)}
      (ih : ∀ e ∈ es, Resolves taken (eliminate taken e) (fun l => resolve l e) e.timeTerms) :
      Resolves taken (eliminateList taken es) (fun l => resolveList l es) (es.flatMap Expr.timeTerms) := by
    induction es with
    | nil => exact .pure []
    | cons e es tail =>
      obtain ⟨ih_e, ih⟩ := List.forall_mem_cons.mp ih
      exact ih_e.bind fun y => (tail ih).map (y :: ·)
  induction e with
  | num v => exact .pure _
  | sym s => exact .pure _
  | sum _ ih | product _ ih | call _ _ ih | apply _ _ ih =>
    rw [Expr.timeTerms_eq]
    exact (list ih).map _
  | power _ _ ha hb | compare _ _ _ ha hb =>
    rw [Expr.timeTerms_eq]
    exact ha.bind fun _ => hb.bind fun _ => .pure _
  | select _ _ _ hc ha hb =>
    rw [Expr.timeTerms_eq]
    exact hc.bind fun _ => ha.bind fun _ => hb.bind fun _ => .pure _
  | derivative x t ih =>
    have terms : (Expr.derivative x t).timeTerms =
        if t = .time then (.derivative, x) :: x.timeTerms else x.timeTerms := by
      rw [Expr.timeTerms_eq, Expr.timeTerm?]
      split <;> simp [Expr.children]
    rw [terms]
    unfold eliminate resolve
    by_cases time : t = .time
    · simp only [if_pos time]
      exact ih.operator .derivative
    · simp only [if_neg time]
      exact ih.map _
  | integral x t ih =>
    have terms : (Expr.integral x t).timeTerms =
        if t = .time then (.integral, x) :: x.timeTerms else x.timeTerms := by
      rw [Expr.timeTerms_eq, Expr.timeTerm?]
      split <;> simp [Expr.children]
    rw [terms]
    unfold eliminate resolve
    by_cases time : t = .time
    · simp only [if_pos time]
      exact ih.operator .integral
    · simp only [if_neg time]
      exact ih.map _

/-- An equation with the unknowns of a list in place of operators of time. -/
def resolveEquation (states : List (TimeState α)) (q : Equation α) : Equation α :=
  ⟨resolve states q.lhs, resolve states q.rhs⟩

/-- The operators of time in an equation. -/
def Equation.timeTerms (q : Equation α) : List (TimeOperator × Expr α) :=
  q.lhs.timeTerms ++ q.rhs.timeTerms

theorem eliminateEquations_resolves (qs : List (Equation α)) :
    Resolves taken (qs.mapM (eliminateEquation taken)) (fun l => qs.map (resolveEquation l))
      (qs.flatMap Equation.timeTerms) := by
  induction qs with
  | nil => exact .pure []
  | cons q qs ih =>
    have head : Resolves taken (eliminateEquation taken q) (fun l => resolveEquation l q) q.timeTerms :=
      (eliminate_resolves q.lhs).bind fun lhs => (eliminate_resolves q.rhs).map (Equation.mk lhs)
    rw [List.mapM_cons]
    exact head.bind fun q => ih.map (q :: ·)

/-! ## Discretized systems -/

/-- The unknowns for derivatives and integrals in a system. -/
def System.timeStates (system : System α) : List (TimeState α) :=
  ((system.equations.mapM (eliminateEquation system.names)).run []).2

/-- The operators of time in the equations of a system. -/
def System.timeTerms (system : System α) : List (TimeOperator × Expr α) :=
  system.equations.flatMap Equation.timeTerms

/-- Discretization resolves the equations, adds the rule of every new unknown and puts the time of the sample in. -/
theorem System.discretize_eq (system : System α) (step : α) :
    system.discretize step =
      { unknowns := system.unknowns ++ system.timeStates.map (·.unknown)
        equations := (system.equations.map (resolveEquation system.timeStates) ++
          system.timeStates.map (·.rule system step)).map (atStep step) } := by
  have equations : ((system.equations.mapM (eliminateEquation system.names)).run []).1 =
      system.equations.map (resolveEquation system.timeStates) :=
    (eliminateEquations_resolves system.equations).result List.prefix_rfl
  rw [← equations]
  rfl

/-- The unknowns of a system are numbered apart from its names. -/
theorem System.numbered_timeStates (system : System α) : Numbered system.names system.timeStates :=
  (eliminateEquations_resolves system.equations).keeps (fun _ _ _ h => h.stateUnknown _ _)
    ⟨List.nodup_nil, List.nodup_nil, fun _ h => absurd h List.not_mem_nil⟩

/-- The recorded pairs are the operators of time in the equations, with resolved operands. -/
theorem System.mem_pairs_timeStates {system : System α} {p : TimeOperator × Expr α} :
    p ∈ system.timeStates.map TimeState.pair ↔
      ∃ t ∈ system.timeTerms, p = (t.1, resolve system.timeStates t.2) := by
  have resolves : Resolves system.names _ _ system.timeTerms := eliminateEquations_resolves system.equations
  refine (resolves.pairs List.prefix_rfl p).trans ?_
  rw [List.map_nil, or_iff_right List.not_mem_nil]
  rfl

/-- The operands of new unknowns come from the equations. -/
theorem System.operand_timeStates {system : System α} {Q : Expr α → Prop}
    (parts : ∀ e, Q e → ∀ x ∈ e.children, Q x)
    (sources : ∀ q ∈ system.equations, Q q.lhs ∧ Q q.rhs) {s : TimeState α}
    (hs : s ∈ system.timeStates) : ∃ x, Q x ∧ s.operand = resolve system.timeStates x := by
  obtain ⟨t, ht, same⟩ := System.mem_pairs_timeStates.mp (List.mem_map_of_mem hs)
  obtain ⟨q, hq, ht⟩ := List.mem_flatMap.mp ht
  obtain ⟨lhs, rhs⟩ := sources q hq
  refine ⟨t.2, ?_, congrArg Prod.snd same⟩
  rcases List.mem_append.mp ht with ht | ht
  · exact Expr.forall_mem_timeTerms parts lhs t ht
  · exact Expr.forall_mem_timeTerms parts rhs t ht

end

end AnalogCircuit
