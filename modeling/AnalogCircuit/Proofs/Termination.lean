import Mathlib.Data.Prod.Lex
import AnalogCircuit.Proofs.Product
import AnalogCircuit.Proofs.Routines
/-!
# The canonical constructors finish

Powers and products are made of each other, and products also of sums. Here the calls are left open, so that nothing is
assumed about their coming to an end, and the loops that flatten nested sums and products take one expression at a turn.

The number of nodes does not bound this recursion: the factors of a base, each to the same power, can have any number of
nodes more than the power had, and the exponents of a common base are added up to a new expression. What descends is a
rank that follows the nesting of bases. An exponent counts in it only where it is that of a base, since only there is it
multiplied; those of factors do not count, whatever they add up to. Below a rank there are only sums and the turns of
loops, and these take nodes off what is pending.
-/

namespace AnalogCircuit.Expr

open Routine

variable {α : Type}

/-! ## Size -/

theorem sizeList_append (es fs : List (Expr α)) : sizeList (es ++ fs) = sizeList es + sizeList fs := by
  induction es with
  | nil => simp [sizeList]
  | cons e es ih => simp only [List.cons_append, sizeList, ih, Nat.add_assoc]

theorem sizeList_replicate (n : ℕ) (e : Expr α) : sizeList (List.replicate n e) = n * e.size := by
  induction n with
  | zero => simp [sizeList]
  | succ n ih => rw [List.replicate_succ, sizeList, ih, Nat.succ_mul, Nat.add_comm]

/-! ## Constructions -/

/-- A call of a canonical constructor, or a turn of one of the loops in them. -/
inductive Construction (α : Type) where
  | power (base exponent : Expr α)
  | product (factors : List (Expr α))
  | sum (terms : List (Expr α))
  /-- Takes up the pending factors, with the coefficient and the powers so far. -/
  | multiply (pending : List (Expr α)) (coefficient : α) (powers : List (Expr α × List (Expr α)))
  /-- Takes up the pending terms, with the constant and the like terms so far. -/
  | add (pending : List (Expr α)) (constant : α) (like : List (Expr α × α))

namespace Construction

/-- What a construction results in. -/
abbrev Result : Construction α → Type
  | power _ _ | product _ | sum _ => Expr α
  | multiply _ _ _ => α × List (Expr α × List (Expr α))
  | add _ _ _ => α × List (Expr α × α)

/-! ## The measure -/

/-- The rank of a call of a power or a product, and below that the nodes that a loop has before it. -/
def measure : Construction α → ℕ ×ₗ ℕ
  | power base _ => toLex (base.baseRank, 0)
  | product factors => toLex (factorRankList factors, sizeList factors + 1)
  | sum terms => toLex (0, sizeList terms + 1)
  | multiply pending _ _ | add pending _ _ => toLex (0, sizeList pending)

theorem lt_of_rank_lt {r s : ℕ} (m n : ℕ) (h : r < s) : toLex (r, m) < toLex (s, n) :=
  Prod.Lex.toLex_lt_toLex.mpr (.inl h)

/-- Where there is no rank on the left, it is enough that there are fewer nodes. -/
theorem lt_of_size_lt {m n : ℕ} (r : ℕ) (h : m < n) : toLex (0, m) < toLex (r, n) := by
  rcases Nat.eq_zero_or_pos r with rfl | hr
  · exact Prod.Lex.toLex_lt_toLex.mpr (.inr ⟨rfl, h⟩)
  · exact lt_of_rank_lt m n hr

theorem measure_wellFounded : WellFounded fun callee caller : Construction α => callee.measure < caller.measure :=
  InvImage.wf measure wellFounded_lt

/-- The nodes of the expressions that a construction is given to work on. -/
def nodes : Construction α → ℕ
  | power base exponent => base.size + exponent.size
  | product es | sum es => sizeList es
  | multiply pending _ _ | add pending _ _ => sizeList pending

/-! ## Routines -/

/-- Raises a power once more: the exponents are multiplied. -/
def multiplyExponents (inner innerExponent exponent : Expr α) : Routine (Result (α := α)) (Expr α) := do
  let multiplied ← ask (product [innerExponent, exponent])
  ask (power inner multiplied)

/-- Raises every factor of a base to the same power. -/
def distribute (fs : List (Expr α)) (exponent : Expr α) : Routine (Result (α := α)) (Expr α) := do
  let raised ← fs.mapM fun f => ask (power f exponent)
  ask (product raised)

/-- Raises a collected base to the sum of its exponents. -/
def raise (g : Expr α × List (Expr α)) : Routine (Result (α := α)) (Expr α) := do
  let exponent ← ask (sum g.2)
  ask (power g.1 exponent)

variable [Scalar α]

/-- How each construction goes about its work. -/
def routine : Routines (Result (α := α))
  | power base exponent =>
    match base.constant?, exponent.constant? with
    | some b, some e => pure (mkNum (Scalar.pow b e))
    | none, some e =>
      if Scalar.isZero e then pure one
      else if Scalar.isOne e then pure base
      else if Scalar.isIntegral e then
        match base with
        | .power inner innerExponent => multiplyExponents inner innerExponent exponent
        | .product fs => distribute fs exponent
        | base => pure (.power base exponent)
      else pure (.power base exponent)
    | some b, none => if Scalar.isOne b then pure one else pure (.power base exponent)
    | none, none => pure (.power base exponent)
  | product factors => do
    let (coefficient, powers) ← ask (multiply factors 1 [])
    if Scalar.isZero coefficient then pure zero
    else
      let raised ← powers.mapM raise
      let fs := raised.flatMap topFactors
      pure (assemble ((fs.filterMap constant?).foldl (· * ·) coefficient) (fs.filter (·.constant?.isNone)))
  | sum terms => do
    let (constant, like) ← ask (add terms 0 [])
    let scaled := (like.filter fun p => !Scalar.isZero p.2).map fun p => scale p.2 p.1
    pure (ofTerms (sort (scaled ++ if Scalar.isZero constant then [] else [mkNum constant])))
  | multiply pending coefficient powers =>
    match pending with
    | [] => pure (coefficient, powers)
    | num v :: rest => ask (multiply rest (coefficient * v) powers)
    | .product fs :: rest => ask (multiply (fs ++ rest) coefficient powers)
    | f :: rest => ask (multiply rest coefficient (collectFactor powers f))
  | add pending constant like =>
    match pending with
    | [] => pure (constant, like)
    | num v :: rest => ask (add rest (constant + v) like)
    | .sum ts :: rest => ask (add (ts ++ rest) constant like)
    | t :: rest => ask (add rest constant (collectTerm like t))

/-- The result of a construction; that of a loop is collected from all that is pending. -/
def result : (c : Construction α) → c.Result
  | power base exponent => mkPow base exponent
  | product factors => mkProduct factors
  | sum terms => mkSum terms
  | multiply pending coefficient powers =>
    (((factorsList pending).filterMap constant?).foldl (· * ·) coefficient,
      ((factorsList pending).filter (·.constant?.isNone)).foldl collectFactor powers)
  | add pending constant like =>
    (((termsList pending).filterMap constant?).foldl (· + ·) constant,
      ((termsList pending).filter (·.constant?.isNone)).foldl collectTerm like)

/-! ## Results -/

theorem run_distribute (fs : List (Expr α)) (e : Expr α) :
    (distribute fs e).run (given result) = some (mkProduct (fs.map (mkPow · e))) := by
  unfold distribute
  rw [run_bind, run_mapM (g := (mkPow · e)) (fun _ => rfl), Option.bind_some]
  rfl

theorem run_raise (g : Expr α × List (Expr α)) : (raise g).run (given result) = some (mkPow g.1 (mkSum g.2)) := rfl

theorem result_multiply (es : List (Expr α)) :
    result (multiply es 1 []) =
      (((factorsList es).filterMap constant?).foldl (· * ·) 1, collectFactors (factorsList es)) := by
  rw [collectFactors_eq]
  rfl

theorem result_add (es : List (Expr α)) :
    result (add es 0 []) = (((termsList es).filterMap constant?).foldl (· + ·) 0, collectTerms (termsList es)) := by
  rw [collectTerms_eq]
  rfl

/-- A power is found without a call, or from a power of the inner base, or from the powers of the factors. -/
theorem routine_power_cases (base exponent : Expr α) :
    routine (power base exponent) = pure (mkPow base exponent) ∨
      (∃ inner innerExponent e, base = .power inner innerExponent ∧ exponent = num e ∧
        routine (power base exponent) = multiplyExponents inner innerExponent exponent ∧
        mkPow base exponent = mkPow inner (mkProduct [innerExponent, exponent])) ∨
      ∃ fs e, base = .product fs ∧ exponent = num e ∧ routine (power base exponent) = distribute fs exponent ∧
        mkPow base exponent = mkProduct (fs.map (mkPow · exponent)) := by
  rw [mkPow_eq]
  unfold routine
  cases exponent with
  | num e =>
    cases base with
    | num b => exact .inl rfl
    | power inner innerExponent =>
      dsimp only [constant?]
      split_ifs
      · exact .inl rfl
      · exact .inl rfl
      · exact .inr (.inl ⟨inner, innerExponent, e, rfl, rfl, rfl, rfl⟩)
      · exact .inl rfl
    | product fs =>
      dsimp only [constant?]
      split_ifs
      · exact .inl rfl
      · exact .inl rfl
      · exact .inr (.inr ⟨fs, e, rfl, rfl, rfl, rfl⟩)
      · exact .inl rfl
    | _ =>
      dsimp only [constant?]
      split_ifs <;> exact .inl rfl
  | _ =>
    cases base with
    | num b =>
      dsimp only [constant?]
      split_ifs <;> exact .inl rfl
    | _ => exact .inl rfl

theorem run_power (base exponent : Expr α) :
    (routine (power base exponent)).run (given result) = some (mkPow base exponent) := by
  rcases routine_power_cases base exponent with h | ⟨inner, innerExponent, e, -, -, h, h'⟩ | ⟨fs, e, -, -, h, h'⟩
  · rw [h, run_pure]
  · rw [h, h']
    rfl
  · rw [h, h', run_distribute]

theorem run_product (es : List (Expr α)) :
    (routine (product es)).run (given result) = some (mkProduct es) := by
  rw [mkProduct_eq]
  unfold routine
  rw [run_bind, run_ask, given, Option.bind_some, result_multiply]
  dsimp only
  split_ifs
  · rfl
  · rw [run_bind, run_mapM run_raise, Option.bind_some, List.flatMap_map]
    rfl

theorem run_sum (es : List (Expr α)) : (routine (sum es)).run (given result) = some (mkSum es) := by
  rw [mkSum_eq]
  unfold routine summands
  rw [run_bind, run_ask, given, Option.bind_some, result_add]
  rfl

theorem run_multiply (pending : List (Expr α)) (coefficient : α) (powers : List (Expr α × List (Expr α))) :
    (routine (multiply pending coefficient powers)).run (given result) =
      some (result (multiply pending coefficient powers)) := by
  cases pending with
  | nil => rfl
  | cons f rest =>
    cases f with
    | product fs =>
      change some (result (multiply (fs ++ rest) coefficient powers)) = _
      simp only [result, factorsList_append, factorsList, factors]
    | _ => rfl

theorem run_add (pending : List (Expr α)) (constant : α) (like : List (Expr α × α)) :
    (routine (add pending constant like)).run (given result) = some (result (add pending constant like)) := by
  cases pending with
  | nil => rfl
  | cons t rest =>
    cases t with
    | sum ts =>
      change some (result (add (ts ++ rest) constant like)) = _
      simp only [result, termsList_append, termsList, terms]
    | _ => rfl

/-- The canonical constructors and their loops are what the routines make of them. -/
theorem solved : Routines.Solved (routine (α := α)) result
  | power base exponent => run_power base exponent
  | product es => run_product es
  | sum es => run_sum es
  | multiply pending coefficient powers => run_multiply pending coefficient powers
  | add pending constant like => run_add pending constant like

/-! ## Calls -/

/-- The calls that one construction can make of others. -/
inductive MayCall : Construction α → Construction α → Prop
  | exponent (inner innerExponent : Expr α) (e : α) :
    MayCall (power (.power inner innerExponent) (num e)) (product [innerExponent, num e])
  | inner (inner innerExponent : Expr α) (e : α) :
    MayCall (power (.power inner innerExponent) (num e)) (power inner (mkProduct [innerExponent, num e]))
  | factor {f : Expr α} {fs : List (Expr α)} (mem : f ∈ fs) (e : α) :
    MayCall (power (.product fs) (num e)) (power f (num e))
  | distributed (fs : List (Expr α)) (e : α) :
    MayCall (power (.product fs) (num e)) (product (fs.map (mkPow · (num e))))
  | multiply (es : List (Expr α)) : MayCall (product es) (multiply es 1 [])
  | exponents {es : List (Expr α)} {g : Expr α × List (Expr α)} (mem : g ∈ collectFactors (factorsList es)) :
    MayCall (product es) (sum g.2)
  | base {es : List (Expr α)} {g : Expr α × List (Expr α)} (mem : g ∈ collectFactors (factorsList es)) :
    MayCall (product es) (power g.1 (mkSum g.2))
  | add (es : List (Expr α)) : MayCall (sum es) (add es 0 [])
  | nextFactor (f : Expr α) (rest : List (Expr α)) (c c' : α) (powers powers' : List (Expr α × List (Expr α))) :
    MayCall (.multiply (f :: rest) c powers) (.multiply rest c' powers')
  | factors (fs rest : List (Expr α)) (c : α) (powers : List (Expr α × List (Expr α))) :
    MayCall (.multiply (.product fs :: rest) c powers) (.multiply (fs ++ rest) c powers)
  | nextTerm (t : Expr α) (rest : List (Expr α)) (c c' : α) (like like' : List (Expr α × α)) :
    MayCall (.add (t :: rest) c like) (.add rest c' like')
  | terms (ts rest : List (Expr α)) (c : α) (like : List (Expr α × α)) :
    MayCall (.add (.sum ts :: rest) c like) (.add (ts ++ rest) c like)

theorem calls_distribute (fs : List (Expr α)) (e : Expr α) :
    (distribute fs e).calls (given result) = fs.map (power · e) ++ [product (fs.map (mkPow · e))] := by
  have each (f : Expr α) : (ask (ρ := Result) (power f e)).run (given result) = some (mkPow f e) := rfl
  unfold distribute
  rw [calls_bind (run_mapM each fs), calls_mapM each, calls_ask, List.map_eq_flatMap (f := (power · e))]
  simp only [calls_ask]

theorem calls_raise (g : Expr α × List (Expr α)) :
    (raise g).calls (given result) = [sum g.2, power g.1 (mkSum g.2)] := rfl

theorem calls_multiplyExponents (inner innerExponent e : Expr α) :
    (multiplyExponents inner innerExponent e).calls (given result) =
      [product [innerExponent, e], power inner (mkProduct [innerExponent, e])] := rfl

theorem MayCall.of_power {base exponent : Expr α} {c : Construction α}
    (h : c ∈ (routine (power base exponent)).calls (given result)) : MayCall (power base exponent) c := by
  rcases routine_power_cases base exponent with
    eq | ⟨inner, innerExponent, e, rfl, rfl, eq, -⟩ | ⟨fs, e, rfl, rfl, eq, -⟩
  · rw [eq] at h
    cases h
  · rw [eq, calls_multiplyExponents, List.mem_pair] at h
    rcases h with rfl | rfl
    · exact .exponent inner innerExponent e
    · exact .inner inner innerExponent e
  · rw [eq, calls_distribute, List.mem_append, List.mem_map, List.mem_singleton] at h
    rcases h with ⟨f, hf, rfl⟩ | rfl
    · exact .factor hf e
    · exact .distributed fs e

theorem MayCall.of_product {es : List (Expr α)} {c : Construction α}
    (h : c ∈ (routine (product es)).calls (given result)) : MayCall (product es) c := by
  unfold routine at h
  rw [calls_bind (run_ask _), calls_ask, result_multiply, List.mem_append, List.mem_singleton] at h
  rcases h with rfl | h
  · exact .multiply es
  dsimp only at h
  split_ifs at h
  · cases h
  · rw [calls_bind (run_mapM run_raise _), calls_mapM run_raise, calls_pure, List.append_nil, List.mem_flatMap] at h
    obtain ⟨g, hg, h⟩ := h
    rw [calls_raise, List.mem_pair] at h
    rcases h with rfl | rfl
    · exact .exponents hg
    · exact .base hg

theorem MayCall.of_sum {es : List (Expr α)} {c : Construction α}
    (h : c ∈ (routine (sum es)).calls (given result)) : MayCall (sum es) c := by
  unfold routine at h
  rw [calls_bind (run_ask _), calls_ask, calls_pure, List.append_nil, List.mem_singleton] at h
  rw [h]
  exact .add es

theorem MayCall.of_multiply {pending : List (Expr α)} {coefficient : α} {powers : List (Expr α × List (Expr α))}
    {c : Construction α} (h : c ∈ (routine (.multiply pending coefficient powers)).calls (given result)) :
    MayCall (.multiply pending coefficient powers) c := by
  cases pending with
  | nil => cases h
  | cons f rest =>
    cases f with
    | product fs =>
      rw [List.mem_singleton.mp h]
      exact .factors fs rest coefficient powers
    | _ =>
      rw [List.mem_singleton.mp h]
      exact .nextFactor _ rest _ _ _ _

theorem MayCall.of_add {pending : List (Expr α)} {constant : α} {like : List (Expr α × α)}
    {c : Construction α} (h : c ∈ (routine (.add pending constant like)).calls (given result)) :
    MayCall (.add pending constant like) c := by
  cases pending with
  | nil => cases h
  | cons t rest =>
    cases t with
    | sum ts =>
      rw [List.mem_singleton.mp h]
      exact .terms ts rest constant like
    | _ =>
      rw [List.mem_singleton.mp h]
      exact .nextTerm _ rest _ _ _ _

theorem mayCall_of_mem {caller callee : Construction α} (h : callee ∈ (routine caller).calls (given result)) :
    MayCall caller callee := by
  cases caller with
  | power base exponent => exact .of_power h
  | product es => exact .of_product h
  | sum es => exact .of_sum h
  | multiply pending coefficient powers => exact .of_multiply h
  | add pending constant like => exact .of_add h

/-! ## Ends -/

/-- The measure decreases at every call. -/
theorem MayCall.measure_lt {caller callee : Construction α} (h : MayCall caller callee) :
    callee.measure < caller.measure := by
  cases h with
  | exponent inner innerExponent e => exact lt_of_rank_lt _ _ (factorRankList_lt_power inner innerExponent e)
  | inner inner innerExponent e => exact lt_of_rank_lt _ _ (baseRank_lt_power inner innerExponent)
  | factor mem e => exact lt_of_rank_lt _ _ (baseRank_lt_product mem)
  | distributed fs e => exact lt_of_rank_lt _ _ (factorRankList_map_mkPow_lt fs (num e))
  -- a sum has no rank, and a product in which a base is collected has one above that of the base
  | exponents mem => exact lt_of_rank_lt _ _ (Nat.zero_lt_of_lt (baseRank_of_mem_collectFactorsList mem))
  | base mem => exact lt_of_rank_lt _ _ (baseRank_of_mem_collectFactorsList mem)
  | multiply es | add es => exact lt_of_size_lt _ (Nat.lt_succ_self _)
  | nextFactor e rest | nextTerm e rest =>
    have := e.size_pos
    exact lt_of_size_lt _ (by rw [sizeList]; omega)
  | factors es rest | terms es rest => exact lt_of_size_lt _ (by rw [sizeList_append, sizeList, size]; omega)

/-- Every construction comes to its result. -/
theorem finishes (c : Construction α) : routine.Finishes c c.result :=
  Routines.finishes_of_descend measure_wellFounded solved (fun _ _ h => (mayCall_of_mem h).measure_lt) c

/-- An integral power of a product, unless it is to zero or one, multiplies the powers of the factors. -/
theorem calls_power_product {e : α} (integral : Scalar.isIntegral e = true) (zero : Scalar.isZero e = false)
    (one : Scalar.isOne e = false) (fs : List (Expr α)) :
    routine.Calls (power (.product fs) (num e)) (product (fs.map (mkPow · (num e)))) := by
  refine (Routines.calls_iff_mem solved finishes).mpr ?_
  unfold routine
  dsimp only [constant?]
  rw [if_neg (Bool.not_eq_true _ ▸ zero), if_neg (Bool.not_eq_true _ ▸ one), if_pos integral, calls_distribute]
  exact List.mem_append_right _ (List.mem_singleton_self _)

/-- The number of nodes is no measure: a call can have any number of them more than its caller. -/
theorem exists_larger_call {e : α} (integral : Scalar.isIntegral e = true) (zero : Scalar.isZero e = false)
    (one : Scalar.isOne e = false) (n : ℕ) :
    ∃ caller callee : Construction α, routine.Calls caller callee ∧ caller.nodes + n < callee.nodes := by
  let x : Expr α := named "x"
  have raised : (List.replicate (n + 2) x).map (mkPow · (num e)) = List.replicate (n + 2) (.power x (num e)) := by
    rw [List.map_replicate, mkPow_integral rfl integral, zero, one]
    rfl
  refine ⟨_, _, calls_power_product integral zero one (List.replicate (n + 2) x), ?_⟩
  have x_size : x.size = 1 := rfl
  rw [raised, nodes, nodes, sizeList_replicate, size, size, size, size, sizeList_replicate, x_size]
  omega

end Construction

variable [Scalar α]

open Construction

/-- Powers, products and sums of any expressions finish, canonical or not: the measure decreases at every call and at
every turn of a loop, so that no chain of calls goes on for ever, and to some depth of calls the results are found. -/
theorem constructors_finish :
    (∀ caller callee : Construction α, routine.Calls caller callee → callee.measure < caller.measure) ∧
      (WellFounded fun callee caller : Construction α => routine.Calls caller callee) ∧
      (∀ base exponent : Expr α, routine.Finishes (.power base exponent) (mkPow base exponent)) ∧
      (∀ es : List (Expr α), routine.Finishes (.product es) (mkProduct es)) ∧
      ∀ es : List (Expr α), routine.Finishes (.sum es) (mkSum es) := by
  have descend (caller callee : Construction α) (h : routine.Calls caller callee) : callee.measure < caller.measure :=
    (mayCall_of_mem (h.mem solved)).measure_lt
  exact ⟨descend, Subrelation.wf (descend _ _) measure_wellFounded, fun base exponent => finishes (.power base exponent),
    fun es => finishes (.product es), fun es => finishes (.sum es)⟩

/-- A base that occurs again under an exponent which is no number. -/
def repeated : List (Expr ℚ) := [named "x", named "n", .power (named "x") (named "n")]

theorem constructors_finish_repeated :
    let caller : Construction ℚ := .power (.product repeated) (num 3)
    let callee : Construction ℚ := .product (repeated.map (mkPow · (num 3)))
    routine.Calls caller callee ∧ caller.nodes < callee.nodes ∧ callee.measure < caller.measure := by
  have called := calls_power_product (e := (3 : ℚ)) (by decide) (by decide) (by decide) repeated
  exact ⟨called, by decide +kernel, constructors_finish.1 _ _ called⟩

end AnalogCircuit.Expr
