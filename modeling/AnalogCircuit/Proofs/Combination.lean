import AnalogCircuit.Proofs.Affine
import AnalogCircuit.Proofs.Reciprocal
/-!
# Combinations of unknowns

Sums, and multiples by constants, of unknowns and of whatever mentions no unknown. Such expressions have coefficients
that can be read off the tree, whatever the terms without unknowns are and even where those have no value. The canonical
constructors compute with the coefficients, replacing an unknown does, and a partial derivative is the coefficient as a
number; so a coefficient that cancels is a derivative that is the constant zero, however the sums are nested.
-/

namespace AnalogCircuit.Expr

variable {α : Type} [ExactScalar α]

/-! ## Coefficients -/

mutual

/-- The coefficient of a symbol. Of the products only the multiples by constants are read. -/
def coefficient (u : Symbol) : Expr α → α
  | sym s => if s = u then 1 else 0
  | sum ts => coefficientSum u ts
  | product fs => coefficientProduct u fs
  | _ => 0

/-- The coefficients of several terms together. -/
def coefficientSum (u : Symbol) : List (Expr α) → α
  | [] => 0
  | e :: es => coefficient u e + coefficientSum u es

/-- The coefficient of a factor behind constants. -/
def coefficientProduct (u : Symbol) : List (Expr α) → α
  | [f] => coefficient u f
  | num c :: fs => c * coefficientProduct u fs
  | _ => 0

end

variable {U : Symbol → Bool} {u : Symbol}

theorem coefficientSum_eq (u : Symbol) (ts : List (Expr α)) :
    coefficientSum u ts = (ts.map (coefficient u)).sum := by
  induction ts with
  | nil => rfl
  | cons t ts ih => rw [coefficientSum, ih, List.map_cons, List.sum_cons]

theorem coefficientProduct_cons (u : Symbol) (c : α) (fs : List (Expr α)) :
    coefficientProduct u (num c :: fs) = c * coefficientProduct u fs := by
  cases fs with
  | nil => simp [coefficientProduct, coefficient]
  | cons f fs => rw [coefficientProduct]; simp

theorem coefficient_num (u : Symbol) (v : α) : coefficient u (num v) = 0 := by
  rw [coefficient] <;> nofun

theorem coefficient_multiple (u : Symbol) (c : α) (b : Expr α) :
    coefficient u (product [num c, b]) = c * coefficient u b := by
  rw [coefficient, coefficientProduct_cons, coefficientProduct]

/-- To read a coefficient is linear. -/
def coefficientForm (α : Type) [ExactScalar α] (u : Symbol) : LinearForm α where
  Regular _ := True
  value := coefficient u
  regular_num _ := trivial
  regular_sum := by simp
  regular_lone := Iff.rfl
  regular_coefficient := Iff.rfl
  value_num v := by rw [one, coefficient_num, coefficient_num, mul_zero]
  value_sum _ := by rw [coefficient, coefficientSum_eq]
  value_lone _ := by rw [coefficient, coefficientProduct]
  value_coefficient _ := by rw [coefficient, coefficientProduct_cons, coefficient]

theorem coefficient_mkSum (u : Symbol) (es : List (Expr α)) :
    (mkSum es).coefficient u = (es.map (coefficient u)).sum :=
  ((coefficientForm α u).mkSum_denotes fun _ _ => trivial).2

/-- What does not occur has the coefficient zero. -/
theorem coefficient_eq_zero {e : Expr α} (h : e.contains u = false) : e.coefficient u = 0 := by
  induction e with
  | sym s =>
    have other : s ≠ u := ne_of_beq_false h
    rw [coefficient, if_neg other]
  | sum ts ih =>
    have parts := dependsOnList_eq_false_iff.mp h
    rw [coefficient, coefficientSum_eq, List.map_congr_left (g := fun _ => 0) fun t ht => ih t ht (parts t ht)]
    exact List.sum_map_zero
  | product fs ih =>
    have parts := dependsOnList_eq_false_iff.mp h
    rw [coefficient]
    clear h
    induction fs with
    | nil => rfl
    | cons f fs rest =>
      obtain ⟨hf, hfs⟩ := List.forall_mem_cons.mp parts
      have rest := rest (fun x hx => ih x (List.mem_cons_of_mem f hx)) hfs
      unfold coefficientProduct
      split
      · next lone =>
        cases lone
        exact ih f List.mem_cons_self hf
      · next same =>
        cases same
        rw [rest, mul_zero]
      · rfl
  | _ => rfl

/-! ## Combinations -/

/-- The expression is a nesting of sums and of multiples of bases by constants, over symbols and over whatever mentions
no unknown. -/
inductive IsCombination (unknown : Symbol → Bool) : Expr α → Prop
  | free {e : Expr α} (h : e.dependsOn unknown = false) : IsCombination unknown e
  | sym (s : Symbol) : IsCombination unknown (sym s)
  | sum {ts : List (Expr α)} (h : ∀ t ∈ ts, IsCombination unknown t) : IsCombination unknown (sum ts)
  | multiple (c : α) {b : Expr α} (base : IsBase b) (h : IsCombination unknown b) :
      IsCombination unknown (product [num c, b])

omit [ExactScalar α] in
theorem isCombination_num (v : α) : IsCombination U (num v) := .free rfl

/-- A base behind a coefficient. -/
theorem IsBase.scale_eq {b : Expr α} (h : IsBase b) (c : α) :
    scale c b = if Scalar.isOne c then b else product [num c, b] := by
  unfold scale
  rw [mkNum_eq]
  split
  · rfl
  split
  · next v => cases h.nonconstant
  · next fs => exact absurd rfl (h.unnested fs)
  · rfl

theorem termwise_isCombination (U : Symbol → Bool) : Termwise fun e : Expr α => IsCombination U e where
  num := isCombination_num
  sum ts := by
    constructor
    · intro h t ht
      cases h with
      | free h => exact .free (dependsOnList_eq_false_iff.mp h t ht)
      | sum h => exact h t ht
    · exact .sum
  rescale {e} h c := by
    have base {b : Expr α} (hb : IsBase b) (h : IsCombination U b) : IsCombination U (scale c b) := by
      rw [hb.scale_eq]
      split
      · exact h
      · exact .multiple c hb h
    cases h with
    | free h => exact .free ((hereditary_dependsOn U).termwise.rescale h c)
    | sym s => exact base (isBase_sym s) (.sym s)
    | sum h => exact base (isBase_sum _) (.sum h)
    | multiple _ hb h => exact base hb h

theorem isCombination_mkSum {es : List (Expr α)} (h : ∀ e ∈ es, IsCombination U e) : IsCombination U (mkSum es) :=
  (termwise_isCombination U).mkSum h

/-- A combination that mentions unknowns is a multiple of a base. -/
theorem IsCombination.free_or_multiple {e : Expr α} (h : IsCombination U e) :
    e.dependsOn U = false ∨ ∃ c b, IsBase b ∧ IsCombination U b ∧ HasFactors e c [b] ∧
      ∀ u, e.coefficient u = c * b.coefficient u := by
  have itself {b : Expr α} (base : IsBase b) (h : IsCombination U b) : ∃ c b', IsBase b' ∧ IsCombination U b' ∧
      HasFactors b c [b'] ∧ ∀ u, b.coefficient u = c * b'.coefficient u :=
    ⟨1, b, base, h, base.toIsFactor.hasFactors, fun _ => (one_mul _).symm⟩
  cases h with
  | free h => exact .inl h
  | sym s => exact .inr (itself (isBase_sym s) (.sym s))
  | sum h => exact .inr (itself (isBase_sum _) (.sum h))
  | multiple c base h =>
    exact .inr ⟨c, _, base, h, hasFactors_multiple c base.toIsFactor, fun u => coefficient_multiple u c _⟩

/-- A multiple of a base has the multiple of its coefficients. -/
theorem IsCombination.assemble {b : Expr α} (base : IsBase b) (h : IsCombination U b) (c : α) :
    IsCombination U (assemble c [b]) ∧ ∀ u, (Expr.assemble c [b]).coefficient u = c * b.coefficient u := by
  rw [assemble_singleton]
  split
  · next zero =>
    rw [Scalar.isZero_iff.mp zero]
    exact ⟨isCombination_num 0, fun u => by rw [Expr.zero, coefficient_num, zero_mul]⟩
  split
  · next one =>
    rw [Scalar.isOne_iff.mp one]
    exact ⟨h, fun u => (one_mul _).symm⟩
  · exact ⟨.multiple c base h, fun u => coefficient_multiple u c b⟩

/-- The product of a combination by constants multiplies its coefficients. -/
theorem IsCombination.mkProduct {e : Expr α} (h : IsCombination U e) (before after : List α) :
    IsCombination U (mkProduct (before.map num ++ e :: after.map num)) ∧ ∀ u, U u = true →
      (Expr.mkProduct (before.map num ++ e :: after.map num)).coefficient u =
        before.prod * after.prod * e.coefficient u := by
  rcases h.free_or_multiple with free | ⟨c, b, base, h, parts, coefficients⟩
  · have operands : ∀ x ∈ before.map num ++ e :: after.map num, x.dependsOn U = false := by
      intro x hx
      rcases List.mem_append.mp hx with hx | hx
      · obtain ⟨v, -, rfl⟩ := List.mem_map.mp hx
        rfl
      rcases List.mem_cons.mp hx with rfl | hx
      · exact free
      · obtain ⟨v, -, rfl⟩ := List.mem_map.mp hx
        rfl
    have product := (hereditary_dependsOn U).mkProduct operands
    refine ⟨.free product, fun u hu => ?_⟩
    rw [coefficient_eq_zero (contains_eq_false hu product), coefficient_eq_zero (contains_eq_false hu free), mul_zero]
  · rw [parts.mkProduct_eq_assemble base.toIsFactor base.isSteady]
    obtain ⟨combination, multiples⟩ := h.assemble base (before.prod * after.prod * c)
    exact ⟨combination, fun u _ => by rw [multiples, coefficients, mul_assoc]⟩

theorem IsCombination.multiple_mkProduct {e : Expr α} (h : IsCombination U e) (c : α) :
    IsCombination U (Expr.mkProduct [num c, e]) ∧ ∀ u, U u = true →
      (Expr.mkProduct [num c, e]).coefficient u = c * e.coefficient u := by
  simpa using h.mkProduct [c] []

theorem IsCombination.neg {e : Expr α} (h : IsCombination U e) :
    IsCombination U (-e) ∧ ∀ u, U u = true → (-e).coefficient u = -e.coefficient u := by
  rw [neg_eq_mkProduct]
  simpa only [neg_one_mul] using h.multiple_mkProduct (-1)

theorem IsCombination.div_num {e : Expr α} (h : IsCombination U e) (d : α) :
    IsCombination U (e / num d) ∧ ∀ u, U u = true → (e / num d).coefficient u = e.coefficient u / d := by
  rw [div_num_eq]
  simpa [div_eq_inv_mul] using h.mkProduct [] [d⁻¹]

/-! ## Replacing an unknown -/

/-- What mentions no unknown is rebuilt, and mentions none again. -/
theorem dependsOn_replace_of_free (hu : U u = true) {e r : Expr α} (h : r.dependsOn U = false) :
    (r.replace u e).dependsOn U = false := by
  rw [replace_eq]
  refine dependsOn_rewrite (leafwise_onSymbols _) (fun s hs => ?_) onSymbols_operators
  have free : U s = false := dependsOn_eq_false_iff.mp h s hs
  have other : s ≠ u := by
    rintro rfl
    rw [hu] at free
    cases free
  show (image (fun t => if t = u then some e else none) s).dependsOn U = false
  rw [image_replace, if_neg other]
  exact free

/-- Replacing an unknown adds the multiple of the coefficients of its image. -/
theorem IsCombination.replace (hu : U u = true) {e r : Expr α} (he : IsCombination U e) (hr : IsCombination U r) :
    IsCombination U (r.replace u e) ∧ ∀ s, U s = true →
      (r.replace u e).coefficient s = (if s = u then 0 else r.coefficient s) + r.coefficient u * e.coefficient s := by
  have leafwise := leafwise_onSymbols fun t => if t = u then some e else none
  induction hr with
  | free h =>
    have replaced := dependsOn_replace_of_free (e := e) hu h
    refine ⟨.free replaced, fun s hs => ?_⟩
    rw [coefficient_eq_zero (contains_eq_false hs replaced), coefficient_eq_zero (contains_eq_false hs h),
      coefficient_eq_zero (contains_eq_false hu h), ite_self, zero_mul, add_zero]
  | sym t =>
    rw [replace_eq, rewrite_sym, image_replace]
    by_cases same : t = u
    · subst same
      rw [if_pos rfl]
      refine ⟨he, fun s _ => ?_⟩
      by_cases here : s = t
      · simp [coefficient, here]
      · simp [coefficient, here, Ne.symm here]
    · rw [if_neg same]
      refine ⟨.sym t, fun s _ => ?_⟩
      by_cases here : s = u <;> simp [coefficient, here, same]
  | @sum ts h ih =>
    have replaced : (Expr.sum ts).replace u e = mkSum (ts.map (·.replace u e)) := by
      simp only [replace_eq]
      rw [rewrite_eq, leafwise.sum]
      rfl
    rw [replaced]
    refine ⟨isCombination_mkSum (List.forall_mem_map.mpr fun t ht => (ih t ht).1), fun s hs => ?_⟩
    have terms : (ts.map (·.replace u e)).map (coefficient s) =
        ts.map fun t => (if s = u then 0 else t.coefficient s) + t.coefficient u * e.coefficient s := by
      rw [List.map_map]
      exact List.map_congr_left fun t ht => (ih t ht).2 s hs
    rw [coefficient_mkSum, terms, List.sum_map_add, List.sum_map_mul_right, coefficient, coefficient,
      coefficientSum_eq, coefficientSum_eq]
    split
    · rw [List.sum_map_zero]
    · rfl
  | @multiple c b base h ih =>
    have replaced : (product [num c, b]).replace u e = Expr.mkProduct [num c, b.replace u e] := by
      simp only [replace_eq]
      rw [rewrite_eq, leafwise.product]
      simp [mapChildren]
    rw [replaced]
    obtain ⟨combination, coefficients⟩ := ih.1.multiple_mkProduct c
    refine ⟨combination, fun s hs => ?_⟩
    rw [coefficients s hs, ih.2 s hs, coefficient_multiple, coefficient_multiple, mul_add, mul_ite, mul_zero, mul_assoc]

/-! ## Derivatives -/

theorem productRule_multiple (c d : α) (b : Expr α) : productRule [(num c, zero), (b, num d)] = num (c * d) := by
  have second : (if (num d : Expr α).isZero then zero else Expr.mkProduct [num c, num d]) = num (c * d) := by
    split
    · next vanishes => rw [Scalar.isZero_iff.mp vanishes, mul_zero, zero]
    · exact mkProduct_nums c d
  have first : (zero : Expr α).isZero = true := Scalar.isZero_iff.mpr rfl
  show mkSum [if (zero : Expr α).isZero then zero else _, if (num d : Expr α).isZero then zero else _] = _
  rw [if_pos first]
  refine (congrArg (fun e => mkSum [zero, e]) second).trans ((mkSum_nums [0, c * d]).trans ?_)
  rw [List.sum_cons, List.sum_singleton, zero_add]

/-- The partial derivative of a combination is its coefficient, whatever becomes of calls that leave the tree. -/
theorem IsCombination.diffStep_eq (hu : U u = true) (again? : Option (Expr α → Expr α)) {e : Expr α}
    (h : IsCombination U e) : diffStep u again? e = num (e.coefficient u) := by
  have absent {e : Expr α} (h : e.contains u = false) : diffStep u again? e = num (e.coefficient u) := by
    rw [diffStep_eq_zero h, coefficient_eq_zero h, zero]
  induction h with
  | free h => exact absent (contains_eq_false hu h)
  | sym s =>
    rw [diffStep.eq_def]
    by_cases same : s = u
    · simp [contains, dependsOn, coefficient, same, one]
    · simp [contains, dependsOn, coefficient, same, zero]
  | @sum ts h ih =>
    by_cases occurs : (Expr.sum ts).contains u = true
    · rw [diffStep.eq_def, occurs]
      have slopes : ts.map (diffStep u again?) = (ts.map (coefficient u)).map num := by
        rw [List.map_map]
        exact List.map_congr_left ih
      show mkSum (diffSteps u again? ts) = _
      rw [diffSteps_eq_map, slopes, mkSum_nums, coefficient, coefficientSum_eq]
    · exact absent (by simpa using occurs)
  | @multiple c b base h ih =>
    by_cases occurs : (product [num c, b]).contains u = true
    · rw [diffStep.eq_def, occurs]
      show productRule [(num c, diffStep u again? (num c)), (b, diffStep u again? b)] = _
      rw [ih, diffStep_eq_zero rfl, productRule_multiple, coefficient_multiple]
    · exact absent (by simpa using occurs)

theorem IsCombination.diff (hu : U u = true) {e : Expr α} (h : IsCombination U e) :
    e.diff u = num (e.coefficient u) := by
  obtain ⟨again?, eq⟩ := exists_diff_eq e
  rw [eq]
  exact h.diffStep_eq hu (again? u)

/-! ## What is nested -/

/-- The expression is nested from unknowns, from whatever mentions no unknown, from canonical sums and from canonical
products by constants, and those are its coefficients. -/
inductive Combines (unknown : Symbol → Bool) : Expr α → (Symbol → α) → Prop
  | free {e : Expr α} (h : e.dependsOn unknown = false) : Combines unknown e 0
  | sym {u : Symbol} (h : unknown u = true) : Combines unknown (sym u) (Pi.single u 1)
  | sum {parts : List (Expr α × (Symbol → α))} (h : ∀ p ∈ parts, Combines unknown p.1 p.2) :
      Combines unknown (mkSum (parts.map (·.1))) (parts.map (·.2)).sum
  | product (before after : List α) {e : Expr α} {c : Symbol → α} (h : Combines unknown e c) :
      Combines unknown (mkProduct (before.map num ++ e :: after.map num)) ((before.prod * after.prod) • c)

/-- What is nested is a combination, and its coefficients can be read off. -/
theorem Combines.isCombination {e : Expr α} {c : Symbol → α} (h : Combines U e c) :
    IsCombination U e ∧ ∀ u, U u = true → e.coefficient u = c u := by
  induction h with
  | free h => exact ⟨.free h, fun u hu => coefficient_eq_zero (contains_eq_false hu h)⟩
  | sym h =>
    refine ⟨.sym _, fun u hu => ?_⟩
    rw [coefficient, Pi.single_apply]
    simp only [eq_comm]
  | @sum parts h ih =>
    refine ⟨isCombination_mkSum (List.forall_mem_map.mpr fun p hp => (ih p hp).1), fun u hu => ?_⟩
    have terms : (parts.map (·.1)).map (coefficient u) =
        (parts.map (·.2)).map (Pi.evalAddMonoidHom (fun _ => α) u) := by
      rw [List.map_map, List.map_map]
      exact List.map_congr_left fun p hp => (ih p hp).2 u hu
    rw [coefficient_mkSum, terms, ← map_list_sum]
    rfl
  | product before after h ih =>
    obtain ⟨combination, coefficients⟩ := ih.1.mkProduct before after
    refine ⟨combination, fun u hu => ?_⟩
    rw [coefficients u hu, ih.2 u hu, Pi.smul_apply, smul_eq_mul]

namespace Combines

variable {a b : Expr α} {c d : Symbol → α}

theorem mul_num (k : α) (h : Combines U a c) : Combines U (num k * a) (k • c) := by
  show Combines U (mkProduct [num k, a]) (k • c)
  simpa using Combines.product [k] [] h

theorem neg (h : Combines U a c) : Combines U (-a) (-c) := by
  rw [neg_eq_mkProduct]
  simpa using Combines.product [-1] [] h

theorem add (ha : Combines U a c) (hb : Combines U b d) : Combines U (a + b) (c + d) := by
  have parts : ∀ p ∈ [(a, c), (b, d)], Combines U p.1 p.2 := by simp [ha, hb]
  show Combines U (mkSum [a, b]) (c + d)
  simpa using Combines.sum parts

theorem sub (ha : Combines U a c) (hb : Combines U b d) : Combines U (a - b) (c - d) := by
  rw [sub_eq_add_neg c d]
  exact ha.add hb.neg

end Combines

end AnalogCircuit.Expr
