import AnalogCircuit.Proofs.Slope
import AnalogCircuit.Proofs.Substitution
import AnalogCircuit.Expr.Derivative
/-!
# Derivatives along a line

While one unknown moves and all other symbols stay, a rational expression is a quotient of polynomials, and the
value of its symbolic derivative is the slope. Whatever is neither sum nor product nor integral power has to be
free of unknowns; there the derivative is zero.
-/

namespace AnalogCircuit

/-- Every symbol has a value. -/
def total {α : Type} (v : Symbol → α) (s : Symbol) : Option α := some (v s)

namespace Expr

variable {α : Type}

/-! ## Rational expressions -/

mutual

/-- Sums, products and integral powers of constants, symbols and expressions that mention no unknown. -/
def isRational [Scalar α] (unknown : Symbol → Bool) : Expr α → Bool
  | num _ | sym _ => true
  | sum ts | product ts => isRationalList unknown ts
  | power b (num n) => isRational unknown b && Scalar.isIntegral n
  | power _ _ => false
  | e => !e.dependsOn unknown

/-- Every expression of a list is rational. -/
def isRationalList [Scalar α] (unknown : Symbol → Bool) : List (Expr α) → Bool
  | [] => true
  | e :: es => isRational unknown e && isRationalList unknown es

end

theorem isRationalList_iff [Scalar α] {U : Symbol → Bool} {es : List (Expr α)} :
    isRationalList U es = true ↔ ∀ e ∈ es, isRational U e = true := by
  induction es with
  | nil => simp [isRationalList]
  | cons e es ih => simp [isRationalList, ih]

/-- Rationality is a matter of the parts of sums, products and powers. -/
theorem hereditary_isRational [Scalar α] (U : Symbol → Bool) :
    Hereditary True fun e : Expr α => isRational U e = true where
  num v := by simp only [isRational]
  sum ts := by simp only [isRational, isRationalList_iff]
  product fs := by simp only [isRational, isRationalList_iff]
  power b e := by
    cases e with
    | num n => simp [isRational, IsIntegral]
    | _ => simp [isRational, IsIntegral]

/-- An expression that mentions no unknown does not mention this one. -/
theorem contains_eq_false {U : Symbol → Bool} {u : Symbol} (hu : U u = true) {e : Expr α}
    (h : e.dependsOn U = false) : e.contains u = false := by
  rw [← Bool.not_eq_true]
  intro occurs
  rw [dependsOn_eq_false_iff.mp h u occurs] at hu
  cases hu

/-! ## The rules of differentiation -/

theorem diffSteps_eq_map [Scalar α] (u : Symbol) (again? : Option (Expr α → Expr α))
    (es : List (Expr α)) : diffSteps u again? es = es.map (diffStep u again?) := by
  induction es with
  | nil => rfl
  | cons e es ih => rw [diffSteps, ih, List.map_cons]

section

variable [ExactScalar α]

/-- A product with the constant zero is zero. -/
theorem mkProduct_zero_cons (es : List (Expr α)) : mkProduct (num 0 :: es) = zero := by
  rw [mkProduct_eq_assemble]
  dsimp only
  rw [if_pos]
  rw [Scalar.isZero_iff, ← List.prod_eq_foldl]
  exact List.prod_eq_zero (List.mem_filterMap.mpr ⟨num 0, List.mem_cons_self, rfl⟩)

theorem num_sub_one (n : α) : num n - one = num (n - 1) := by
  show mkSum [num n, mkProduct [mkNum (-1), num 1]] = _
  rw [mkNum_eq, mkProduct_nums, mul_one]
  exact (mkSum_nums [n, -1]).trans (by simp [sub_eq_add_neg])

/-- The derivatives are single steps, up to what is done with calls that leave the tree. -/
theorem exists_diff_eq (e : Expr α) :
    ∃ again? : Symbol → Option (Expr α → Expr α), ∀ u, e.diff u = diffStep u (again? u) e := by
  unfold diff
  cases e.rewritableCalls with
  | zero => exact ⟨fun _ => none, fun _ => rfl⟩
  | succ k => exact ⟨fun u => some (diffWith u k), fun _ => rfl⟩

/-- What does not mention the symbol has the derivative zero. -/
theorem diffStep_eq_zero {u : Symbol} {again? : Option (Expr α → Expr α)} {e : Expr α} (h : e.contains u = false) :
    diffStep u again? e = zero := by
  rw [diffStep.eq_def, h, Bool.not_false, if_pos rfl]

namespace Interpretation

variable {M : Interpretation α} {u : Symbol} {again? : Option (Expr α → Expr α)}

/-- The product rule replaces each factor in turn by its derivative. -/
theorem productRule_denotes {fs : List (Expr α × Expr α)}
    (h : ∀ f ∈ fs, M.Regular f.1 ∧ M.Regular f.2) :
    M.Denotes (productRule fs)
      (HasSlope.leibniz (fun f => M.value f.1) (fun f => M.value f.2) fs) := by
  have each : ∀ p ∈ fs.zipIdx, M.Denotes
      (if p.1.2.isZero then zero else mkProduct ((fs.map (·.1)).set p.2 p.1.2))
      (((fs.map fun g => M.value g.1).set p.2 (M.value p.1.2)).prod) := by
    rintro ⟨f, i⟩ hp
    obtain ⟨hi, rfl⟩ := List.getElem?_eq_some_iff.mp (List.mk_mem_zipIdx_iff_getElem?.mp hp)
    obtain ⟨-, hd⟩ := h _ (List.getElem_mem hi)
    by_cases hz : fs[i].2.isZero
    · rw [if_pos hz]
      have vanishes : M.value fs[i].2 = 0 := by
        cases hf : fs[i].2 <;> rw [hf] at hz <;> first | cases hz | skip
        exact (M.value_num _).trans (Scalar.isZero_iff.mp hz)
      rw [vanishes, List.prod_eq_zero (List.mem_set (by simpa using hi) 0)]
      exact denotes_zero
    · rw [if_neg hz]
      have all : ∀ e ∈ (fs.map (·.1)).set i fs[i].2, M.Regular e := by
        intro e he
        rcases List.mem_or_eq_of_mem_set he with he | rfl
        · obtain ⟨g, hg, rfl⟩ := List.mem_map.mp he
          exact (h g hg).1
        · exact hd
      obtain ⟨hr, hv⟩ := mkProduct_denotes all
      rw [List.map_set, List.map_map] at hv
      exact ⟨hr, hv⟩
  unfold productRule HasSlope.leibniz
  simp only [List.mapIdx_eq_zipIdx_map]
  have all : ∀ e ∈ fs.zipIdx.map fun p : (Expr α × Expr α) × Nat =>
      if p.1.2.isZero then zero else mkProduct ((fs.map (·.1)).set p.2 p.1.2), M.Regular e := by
    intro e he
    obtain ⟨p, hp, rfl⟩ := List.mem_map.mp he
    exact (each p hp).1
  obtain ⟨hr, hv⟩ := mkSum_denotes all
  refine ⟨hr, hv.trans ?_⟩
  rw [List.map_map]
  exact congrArg List.sum (List.map_congr_left fun p hp => (each p hp).2)

/-- An integral power is differentiated by its exponent times the power below and the derivative of the
base. -/
theorem constantPowerRule_denotes {b d : Expr α} {n : Int} (h : M.Regular (power b (num (n : α))))
    (hd : M.Regular d) :
    M.Denotes (constantPowerRule b (num (n : α)) d) (n * M.value b ^ (n - 1) * M.value d) := by
  obtain ⟨_, ⟨⟩, hb, -, nonzero⟩ := M.regular_power.mp h
  rw [Scalar.toInt_intCast, Scalar.isZero_eq_false_iff] at nonzero
  unfold constantPowerRule
  rw [num_sub_one]
  by_cases hn : n = 0
  · subst hn
    rw [Int.cast_zero, mkProduct_zero_cons, zero_mul, zero_mul]
    exact denotes_zero
  · have integral : Scalar.isIntegral ((n : α) - 1) = true :=
      Scalar.isIntegral_iff.mpr ⟨n - 1, by push_cast; rfl⟩
    have exponent : Scalar.toInt ((n : α) - 1) = n - 1 := by
      rw [← Int.cast_one, ← Int.cast_sub, Scalar.toInt_intCast]
    have below : M.Regular (power b (num ((n : α) - 1))) := by
      refine M.regular_power.mpr ⟨_, rfl, hb, integral, ?_⟩
      rw [exponent, Scalar.isZero_eq_false_iff]
      intro hneg
      exact nonzero (by omega)
    obtain ⟨hp, hv⟩ := mkPow_denotes below
    have factors : ∀ e ∈ [num (n : α), mkPow b (num ((n : α) - 1)), d], M.Regular e := by
      simp [hp, hd]
    obtain ⟨hr, hprod⟩ := mkProduct_denotes factors
    refine ⟨hr, hprod.trans ?_⟩
    simp only [List.map_cons, List.map_nil, List.prod_cons, List.prod_nil, M.value_num, mul_one]
    rw [hv, M.value_power hb integral, exponent, mul_assoc]

/-! ### Derivatives of sums, products and powers -/

theorem diffStep_sum {ts : List (Expr α)} (h : ∀ x ∈ ts, M.Regular (diffStep u again? x)) :
    M.Denotes (diffStep u again? (sum ts)) (ts.map fun x => M.value (diffStep u again? x)).sum := by
  cases occurs : (sum ts).contains u with
  | true =>
    rw [diffStep, occurs, Bool.not_true, if_neg Bool.false_ne_true, diffSteps_eq_map]
    have all : ∀ d ∈ ts.map (diffStep u again?), M.Regular d := List.forall_mem_map.mpr h
    obtain ⟨regular, value⟩ := mkSum_denotes all
    exact ⟨regular, value.trans (congrArg List.sum List.map_map)⟩
  | false =>
    have none : ts.map (fun x => M.value (diffStep u again? x)) = ts.map fun _ => 0 :=
      List.map_congr_left fun x hx => by
        rw [diffStep_eq_zero (dependsOnList_eq_false_iff.mp occurs x hx), denotes_zero.2]
    rw [diffStep_eq_zero occurs, none, List.map_const', List.sum_replicate, smul_zero]
    exact denotes_zero

theorem diffStep_product {fs : List (Expr α)} (h : ∀ x ∈ fs, M.Regular x ∧ M.Regular (diffStep u again? x)) :
    M.Denotes (diffStep u again? (product fs))
      (HasSlope.leibniz M.value (fun x => M.value (diffStep u again? x)) fs) := by
  cases occurs : (product fs).contains u with
  | true =>
    have pairs : fs.zip (fs.map (diffStep u again?)) = fs.map fun f => (f, diffStep u again? f) := by
      simpa using List.zip_map' (f := id) (g := diffStep u again?) (l := fs)
    rw [diffStep, occurs, Bool.not_true, if_neg Bool.false_ne_true, diffSteps_eq_map, pairs]
    have all : ∀ p ∈ fs.map fun f => (f, diffStep u again? f), M.Regular p.1 ∧ M.Regular p.2 :=
      List.forall_mem_map.mpr h
    obtain ⟨regular, value⟩ := productRule_denotes all
    exact ⟨regular, value.trans (HasSlope.leibniz_map _ _ _ _)⟩
  | false =>
    have none : HasSlope.leibniz M.value (fun x => M.value (diffStep u again? x)) fs = 0 := by
      refine HasSlope.leibniz_eq_zero fun x hx => ?_
      rw [diffStep_eq_zero (dependsOnList_eq_false_iff.mp occurs x hx), denotes_zero.2]
    rw [diffStep_eq_zero occurs, none]
    exact denotes_zero

theorem diffStep_power {b : Expr α} {n : Int} (h : M.Regular (power b (num (n : α))))
    (hd : M.Regular (diffStep u again? b)) :
    M.Denotes (diffStep u again? (power b (num (n : α))))
      (n * M.value b ^ (n - 1) * M.value (diffStep u again? b)) := by
  cases occurs : (power b (num (n : α))).contains u with
  | true =>
    rw [diffStep, occurs, Bool.not_true, if_neg Bool.false_ne_true,
      show (num (n : α)).contains u = false from rfl, if_neg Bool.false_ne_true]
    exact constantPowerRule_denotes h hd
  | false =>
    rw [diffStep_eq_zero occurs, diffStep_eq_zero (Bool.or_eq_false_iff.mp occurs).1, denotes_zero.2, mul_zero]
    exact denotes_zero

end Interpretation

/-! ## Motions -/

/-- Interpretations that depend on a parameter, while symbols move at constant speeds. -/
structure Motion (α : Type) [ExactScalar α] where
  domain : Set α
  /-- The symbols that move. -/
  unknowns : List Symbol
  speed : Symbol → α
  frame : α → Interpretation α

/-- How fast the value of an expression changes, according to its derivatives by the unknowns. -/
def Motion.change (m : Motion α) (again? : Symbol → Option (Expr α → Expr α)) (t : α) (e : Expr α) : α :=
  (m.unknowns.map fun u => m.speed u * (m.frame t).value (diffStep u (again? u) e)).sum

/-- The derivatives of the expression are regular, and together they make up its slope. -/
structure Motion.Differentiates (m : Motion α) (again? : Symbol → Option (Expr α → Expr α)) (e : Expr α) : Prop where
  regular : ∀ u ∈ m.unknowns, ∀ t ∈ m.domain, (m.frame t).Regular (diffStep u (again? u) e)
  slope : HasSlope m.domain (fun t => (m.frame t).value e) (m.change again? · e)

namespace Motion

variable {m : Motion α} {again? : Symbol → Option (Expr α → Expr α)}

/-- Weighted sums can be taken in either order. -/
theorem sum_map_comm {β γ : Type} (c : γ → α) (f : γ → β → α) (us : List γ) (l : List β) :
    (l.map fun x => (us.map fun u => c u * f u x).sum).sum = (us.map fun u => c u * (l.map (f u)).sum).sum := by
  induction l with
  | nil => simp
  | cons x l ih => simp only [List.map_cons, List.sum_cons, ih, mul_add, List.sum_map_add]

theorem Differentiates.sum {ts : List (Expr α)} (parts : ∀ x ∈ ts, m.Differentiates again? x)
    (regular : ∀ t ∈ m.domain, ∀ x ∈ ts, (m.frame t).Regular x) : m.Differentiates again? (sum ts) := by
  have rule (u : Symbol) (hu : u ∈ m.unknowns) (t : α) (ht : t ∈ m.domain) :=
    (m.frame t).diffStep_sum fun x hx => (parts x hx).regular u hu t ht
  refine ⟨fun u hu t ht => (rule u hu t ht).1, ?_⟩
  refine (HasSlope.sum fun x hx => (parts x hx).slope).congr
    (fun t ht => (m.frame t).value_sum (regular t ht)) fun t ht => ?_
  refine Eq.trans (congrArg List.sum (List.map_congr_left fun u hu => ?_)) (sum_map_comm m.speed _ _ _).symm
  rw [(rule u hu t ht).2]

theorem Differentiates.product {fs : List (Expr α)} (parts : ∀ x ∈ fs, m.Differentiates again? x)
    (regular : ∀ t ∈ m.domain, ∀ x ∈ fs, (m.frame t).Regular x) : m.Differentiates again? (product fs) := by
  have rule (u : Symbol) (hu : u ∈ m.unknowns) (t : α) (ht : t ∈ m.domain) :=
    (m.frame t).diffStep_product fun x hx => ⟨regular t ht x hx, (parts x hx).regular u hu t ht⟩
  refine ⟨fun u hu t ht => (rule u hu t ht).1, ?_⟩
  refine (HasSlope.prod fun x hx => (parts x hx).slope).congr
    (fun t ht => (m.frame t).value_product (regular t ht)) fun t ht => ?_
  refine Eq.trans (congrArg List.sum (List.map_congr_left fun u hu => ?_))
    (HasSlope.leibniz_sum _ m.speed _ _ _).symm
  rw [(rule u hu t ht).2]

theorem Differentiates.power {b : Expr α} {n : α} (base : m.Differentiates again? b)
    (regular : ∀ t ∈ m.domain, (m.frame t).Regular (power b (num n))) (hn : Scalar.isIntegral n = true) :
    m.Differentiates again? (power b (num n)) := by
  obtain ⟨k, rfl⟩ := Scalar.isIntegral_iff.mp hn
  have parts (t : α) (ht : t ∈ m.domain) : (m.frame t).Regular b ∧ (k < 0 → (m.frame t).value b ≠ 0) := by
    obtain ⟨_, ⟨⟩, hr, -, nonzero⟩ := (m.frame t).regular_power.mp (regular t ht)
    rw [Scalar.toInt_intCast, Scalar.isZero_eq_false_iff] at nonzero
    exact ⟨hr, nonzero⟩
  have rule (u : Symbol) (hu : u ∈ m.unknowns) (t : α) (ht : t ∈ m.domain) :=
    (m.frame t).diffStep_power (regular t ht) (base.regular u hu t ht)
  refine ⟨fun u hu t ht => (rule u hu t ht).1, ?_⟩
  refine (base.slope.zpow k fun negative t ht => (parts t ht).2 negative).congr (fun t ht => ?_) fun t ht => ?_
  · rw [(m.frame t).value_power (parts t ht).1 hn, Scalar.toInt_intCast]
  · unfold change
    rw [← List.sum_map_mul_left]
    refine congrArg List.sum (List.map_congr_left fun u hu => ?_)
    rw [(rule u hu t ht).2]
    ring

/-- What mentions no unknown and keeps its value has the slope zero. -/
theorem Differentiates.constant {e : Expr α} (free : ∀ u ∈ m.unknowns, diffStep u (again? u) e = zero) {c : α}
    (value : ∀ t ∈ m.domain, (m.frame t).value e = c) : m.Differentiates again? e := by
  refine ⟨fun u hu t _ => ?_, (HasSlope.const c).congr value fun t _ => ?_⟩
  · rw [free u hu]
    exact Interpretation.denotes_zero.1
  · refine (congrArg List.sum (List.map_congr_left fun u hu => ?_)).trans (List.sum_map_zero (l := m.unknowns))
    rw [free u hu, Interpretation.denotes_zero.2, mul_zero]

end Motion

end

/-! ## Slopes -/

section

variable [ExactScalar α] {U : Symbol → Bool} {u : Symbol} {v : Symbol → α} {D : Set α}

/-- While the unknown moves in the domain, `d` has a value everywhere, and it is the slope of `e`. -/
def IsSlope (D : Set α) (u : Symbol) (v : Symbol → α) (e d : Expr α) : Prop :=
  (∀ t ∈ D, Regular (total (Function.update v u t)) d) ∧
    HasSlope D (fun t => value (total (Function.update v u t)) e)
      fun t => value (total (Function.update v u t)) d

/-- One unknown moves, and its value is the parameter. -/
def oneMoves (D : Set α) (u : Symbol) (v : Symbol → α) : Motion α :=
  ⟨D, [u], fun _ => 1, fun t => evaluation (total (Function.update v u t))⟩

theorem isSlope_iff {again? : Option (Expr α → Expr α)} {e : Expr α} :
    IsSlope D u v e (diffStep u again? e) ↔ (oneMoves D u v).Differentiates (fun _ => again?) e := by
  have change (t : α) : (oneMoves D u v).change (fun _ => again?) t e =
      value (total (Function.update v u t)) (diffStep u again? e) := by
    simp [Motion.change, oneMoves, evaluation]
  constructor
  · rintro ⟨regular, slope⟩
    refine ⟨fun x hx t ht => ?_, slope.congr (fun _ _ => rfl) fun t _ => change t⟩
    rw [List.mem_singleton.mp hx]
    exact regular t ht
  · rintro ⟨regular, slope⟩
    exact ⟨regular u List.mem_cons_self, slope.congr (fun _ _ => rfl) fun t _ => (change t).symm⟩

/-- The symbolic derivative of a rational expression is its slope, wherever no divisor is zero. -/
theorem diffStep_isSlope (hu : U u = true) (again? : Option (Expr α → Expr α)) {e : Expr α}
    (rational : isRational U e = true)
    (regular : ∀ t ∈ D, Regular (total (Function.update v u t)) e) :
    IsSlope D u v e (diffStep u again? e) := by
  rw [isSlope_iff]
  have constant {e : Expr α} (absent : e.contains u = false) :
      (oneMoves D u v).Differentiates (fun _ => again?) e := by
    refine .constant (c := value (total v) e) (fun x hx => ?_) fun t _ => ?_
    · rw [List.mem_singleton.mp hx]
      exact diffStep_eq_zero absent
    · refine value_congr (p := (· == u)) (fun s hs => ?_) absent
      rw [total, total, Function.update_of_ne (ne_of_beq_false hs)]
  have free {e : Expr α} (h : (!e.dependsOn U) = true) : (oneMoves D u v).Differentiates (fun _ => again?) e :=
    constant (contains_eq_false hu (by simpa using h))
  induction e with
  | num c => exact constant rfl
  | sym s =>
    by_cases same : s = u
    · subst same
      have here : diffStep s again? (sym s) = (one : Expr α) := by
        simp [diffStep, contains, dependsOn]
      refine isSlope_iff.mp ?_
      rw [here]
      refine ⟨fun t ht => denotes_one.1, ?_⟩
      refine HasSlope.id.congr (fun t _ => value_of_evaluate ?_) fun _ _ => rfl
      rw [evaluate, total, Function.update_self]
    · exact constant (beq_false_of_ne same)
  | sum ts ih =>
    have rational := isRationalList_iff.mp rational
    have regular (t : α) (ht : t ∈ D) := regular_sum.mp (regular t ht)
    exact .sum (fun x hx => ih x hx (rational x hx) fun t ht => regular t ht x hx) regular
  | product fs ih =>
    have rational := isRationalList_iff.mp rational
    have regular (t : α) (ht : t ∈ D) := regular_product.mp (regular t ht)
    exact .product (fun x hx => ih x hx (rational x hx) fun t ht => regular t ht x hx) regular
  | power b e hb _ =>
    obtain ⟨rational_base, -, integral⟩ := (hereditary_isRational U).power b e |>.mp rational
    obtain ⟨n, rfl, hn⟩ := integral trivial
    have base (t : α) (ht : t ∈ D) : Regular (total (Function.update v u t)) b := by
      obtain ⟨_, ⟨⟩, hr, -, -⟩ := regular_power.mp (regular t ht)
      exact hr
    exact .power (hb rational_base base) regular hn
  | call _ _ _ | apply _ _ _ | compare _ _ _ _ _ | select _ _ _ _ _ _ | derivative _ _ _
  | integral _ _ _ => exact free rational

/-- The derivative of a rational expression is its slope. -/
theorem diff_isSlope (hu : U u = true) {e : Expr α} (rational : isRational U e = true)
    (regular : ∀ t ∈ D, Regular (total (Function.update v u t)) e) : IsSlope D u v e (e.diff u) := by
  obtain ⟨again?, eq⟩ := exists_diff_eq e
  rw [eq]
  exact diffStep_isSlope hu _ rational regular

/-- If no divisor of a rational expression is zero at one place, some is at finitely many places only. -/
theorem finite_not_regular (hu : U u = true) {e : Expr α} (rational : isRational U e = true) {t : α}
    (regular : Regular (total (Function.update v u t)) e) :
    {s | ¬Regular (total (Function.update v u s)) e}.Finite := by
  have free {e : Expr α} (h : (!e.dependsOn U) = true) (regular : Regular (total (Function.update v u t)) e) :
      {s | ¬Regular (total (Function.update v u s)) e}.Finite := by
    have absent : e.contains u = false := contains_eq_false hu (by simpa using h)
    refine Set.finite_empty.subset fun s hs => hs ?_
    refine (regular_congr (p := (· == u)) (fun x hx => ?_) absent).mp regular
    rw [total, total, Function.update_of_ne (ne_of_beq_false hx), Function.update_of_ne (ne_of_beq_false hx)]
  have parts {es : List (Expr α)}
      (h : ∀ e ∈ es, {s | ¬Regular (total (Function.update v u s)) e}.Finite) :
      {s | ¬∀ e ∈ es, Regular (total (Function.update v u s)) e}.Finite := by
    refine ((List.finite_toSet es).biUnion h).subset fun s hs => ?_
    obtain ⟨e, he⟩ := not_forall.mp hs
    exact Set.mem_biUnion (Classical.not_imp.mp he).1 (Classical.not_imp.mp he).2
  induction e with
  | num c => exact Set.finite_empty.subset fun s hs => hs (regular_num c)
  | sym s => exact Set.finite_empty.subset fun s hs => hs (by rw [Regular]; rfl)
  | sum ts ih =>
    have rational := isRationalList_iff.mp rational
    simp only [regular_sum] at regular ⊢
    exact parts fun x hx => ih x hx (rational x hx) (regular x hx)
  | product fs ih =>
    have rational := isRationalList_iff.mp rational
    simp only [regular_product] at regular ⊢
    exact parts fun x hx => ih x hx (rational x hx) (regular x hx)
  | power b e hb _ =>
    obtain ⟨rational_base, -, -⟩ := (hereditary_isRational U).power b e |>.mp rational
    obtain ⟨n, rfl, base, integral, nonzero⟩ := regular_power.mp regular
    -- behind a negative exponent the zeros of the base are excluded, too
    by_cases negative : Scalar.toInt n < 0
    · obtain ⟨-, slope⟩ := diff_isSlope (D := {s | Regular (total (Function.update v u s)) b}) hu rational_base
        fun s hs => hs
      have zeros := slope.finite_zeros base (Scalar.isZero_eq_false_iff.mp (nonzero negative))
      refine ((hb rational_base base).union zeros).subset fun s hs => ?_
      by_cases regular : Regular (total (Function.update v u s)) b
      · refine .inr ⟨regular, by_contra fun other => hs (regular_power.mpr ⟨n, rfl, regular, integral, fun _ => ?_⟩)⟩
        exact Scalar.isZero_eq_false_iff.mpr other
      · exact .inl regular
    · refine (hb rational_base base).subset fun s hs regular => hs (regular_power.mpr ⟨n, rfl, regular, integral, ?_⟩)
      exact fun h => absurd h negative
  | call _ _ _ | apply _ _ _ | compare _ _ _ _ _ | select _ _ _ _ _ _ | derivative _ _ _
  | integral _ _ _ => exact free rational regular

/-- So the places at which no divisor is zero are infinitely many. -/
theorem infinite_regular (hu : U u = true) {e : Expr α} (rational : isRational U e = true) {t : α}
    (regular : Regular (total (Function.update v u t)) e) :
    {s | Regular (total (Function.update v u s)) e}.Infinite := by
  refine (finite_not_regular hu rational regular).infinite_compl.mono fun s hs => ?_
  exact not_not.mp hs

end

end Expr

end AnalogCircuit
