import AnalogCircuit.Proofs.Sum
/-!
# The value of a canonical product

Products and powers are defined by each other, so their values are found by one induction on the ranks by
which both end. Powers of a common base are merged: the exponents of regular factors are integers, and where
one of them is negative the base is not zero, so the power with the sum of the exponents has the same value.
-/

namespace AnalogCircuit.Expr

variable {α : Type}

/-! ## Induction on ranks -/

/-- What holds of the powers of a base because it holds of all that ranks lower, and of a product because it
holds of the powers of its bases, holds of all powers and products. -/
theorem rank_induction {P : Expr α → Prop} {Q : List (Expr α) → Prop}
    (pow : ∀ b, (∀ b', b'.baseRank < b.baseRank → P b') →
      (∀ es, factorRankList es < b.baseRank → Q es) → P b)
    (product : ∀ es, (∀ b, b.baseRank < factorRankList es → P b) → Q es) :
    (∀ b, P b) ∧ ∀ es, Q es := by
  have key : ∀ n : Nat, (∀ b, b.baseRank < n → P b) ∧ ∀ es, factorRankList es < n → Q es := by
    intro n
    induction n with
    | zero => exact ⟨fun _ h => absurd h (Nat.not_lt_zero _), fun _ h => absurd h (Nat.not_lt_zero _)⟩
    | succ n ih =>
      constructor
      · intro b hb
        have hb := Nat.le_of_lt_succ hb
        exact pow b (fun b' h => ih.1 b' (Nat.lt_of_lt_of_le h hb))
          fun es h => ih.2 es (Nat.lt_of_lt_of_le h hb)
      · intro es hes
        have hes := Nat.le_of_lt_succ hes
        exact product es fun b h => ih.1 b (Nat.lt_of_lt_of_le h hes)
  exact ⟨fun b => (key _).1 b (Nat.lt_succ_self _), fun es => (key _).2 es (Nat.lt_succ_self _)⟩

/-! ## Factors -/

theorem factorsList_eq_flatMap (es : List (Expr α)) : factorsList es = es.flatMap factors := by
  induction es with
  | nil => rfl
  | cons e es ih => rw [factorsList, ih, List.flatMap_cons]

theorem factorsList_append (es es' : List (Expr α)) :
    factorsList (es ++ es') = factorsList es ++ factorsList es' := by
  simp [factorsList_eq_flatMap]

/-- A finished power is no product within a product. -/
theorem factorRank_mkPow_le [Scalar α] (b e : Expr α) :
    (mkPow b e).factorRank ≤ b.baseRank + 1 := (powRanked b e).property

/-- The factors of a base rank below it. -/
theorem baseRank_lt_product {f : Expr α} {fs : List (Expr α)} (hf : f ∈ fs) :
    f.baseRank < (product fs).baseRank :=
  Nat.lt_of_le_of_lt (baseRank_le_of_mem hf) (Nat.lt_trans (Nat.lt_succ_self _) (baseRankList_lt fs))

/-- Raising the factors of a base to a power gives factors that rank below the base. -/
theorem factorRankList_map_mkPow_lt [Scalar α] (fs : List (Expr α)) (e : Expr α) :
    factorRankList (fs.map (mkPow · e)) < (product fs).baseRank := by
  refine Nat.lt_of_le_of_lt (factorRankList_le.mpr ?_) (baseRankList_lt fs)
  intro f hf
  obtain ⟨g, hg, rfl⟩ := List.mem_map.mp hf
  exact Nat.le_trans (factorRank_mkPow_le g e) (Nat.succ_le_succ (baseRank_le_of_mem hg))

/-- Enters a factor by its base and exponent. -/
def collectFactor [Scalar α] (powers : List (Expr α × List (Expr α))) (f : Expr α) :
    List (Expr α × List (Expr α)) :=
  adjust [] f.basePower.1 (· ++ [f.basePower.2]) powers

theorem collectFactors_eq [Scalar α] (fs : List (Expr α)) :
    collectFactors fs = (fs.filter (·.constant?.isNone)).foldl collectFactor [] := by
  rw [List.foldl_filter, collectFactors]
  congr
  funext powers f
  cases f <;> rfl

/-- The factors of the powers that a product collects. -/
def collectedPowers [Scalar α] (es : List (Expr α)) : List (Expr α) :=
  (collectFactors (factorsList es)).flatMap fun g => (mkPow g.1 (mkSum g.2)).topFactors

/-- The product of factors that are canonical together. -/
def joinFactors [Scalar α] : List (Expr α) → Expr α
  | [] => one
  | [e] => e
  | es => product es

theorem assemble_eq [Scalar α] (c : α) (fs : List (Expr α)) :
    assemble c fs = if Scalar.isZero c then zero
      else joinFactors (if Scalar.isOne c then sort fs else mkNum c :: sort fs) := rfl

theorem mkProduct_eq_assemble [Scalar α] (es : List (Expr α)) :
    mkProduct es =
      let c := ((factorsList es).filterMap constant?).foldl (· * ·) (1 : α)
      if Scalar.isZero c then zero
      else assemble (((collectedPowers es).filterMap constant?).foldl (· * ·) c)
        ((collectedPowers es).filter fun f => f.constant?.isNone) := mkProduct_eq es

theorem mkPow_num_num [Scalar α] (v n : α) : mkPow (num v) (num n) = mkNum (Scalar.pow v n) := by
  rw [mkPow_eq]

/-- How the integral power of a base that is not constant is built. -/
theorem mkPow_integral [Scalar α] {b : Expr α} {n : α} (hb : b.constant? = none)
    (hn : Scalar.isIntegral n = true) :
    mkPow b (num n) =
      if Scalar.isZero n then one else if Scalar.isOne n then b
      else match b with
        | .power inner innerExponent => mkPow inner (mkProduct [innerExponent, num n])
        | .product fs => mkProduct (fs.map (mkPow · (num n)))
        | b => .power b (num n) := by
  rw [mkPow_eq]
  cases b with
  | num v => cases hb
  | _ => simp only [hn, if_true]

section

variable [ExactScalar α]

/-! ## Constants -/

/-- The sum of constants is a constant. -/
theorem mkSum_nums (vs : List α) : mkSum (vs.map num) = num vs.sum := by
  have terms : termsList (vs.map num) = vs.map num := by
    rw [termsList_eq_flatMap, List.flatMap_map]
    exact (List.map_eq_flatMap (f := num) (l := vs)).symm
  have none : (vs.map num).filter (fun e : Expr α => e.constant?.isNone) = [] := by
    rw [List.filter_eq_nil_iff]
    rintro e he
    obtain ⟨v, -, rfl⟩ := List.mem_map.mp he
    simp [constant?]
  have constants : (vs.map num).filterMap (constant? : Expr α → Option α) = vs := by
    rw [List.filterMap_map]
    exact List.filterMap_some
  rw [mkSum_eq, summands, terms, collectTerms_eq, none, constants, ← List.sum_eq_foldl]
  dsimp only [List.foldl_nil, List.filter_nil, List.map_nil, List.nil_append]
  by_cases h : Scalar.isZero vs.sum
  · rw [if_pos h, Scalar.isZero_iff.mp h]
    rfl
  · rw [if_neg h, mkNum_eq]
    rfl

/-- The product of two constants is a constant. -/
theorem mkProduct_nums (a b : α) : mkProduct [num a, num b] = num (a * b) := by
  have constants : ((factorsList [num a, num b]).filterMap constant?).foldl (· * ·) (1 : α) = a * b := by
    simp [factorsList, factors, constant?]
  have none : collectedPowers [num a, num b] = [] := rfl
  rw [mkProduct_eq_assemble, constants, none]
  dsimp only [List.filterMap_nil, List.foldl_nil, List.filter_nil]
  rw [assemble_eq]
  by_cases hz : Scalar.isZero (a * b)
  · rw [if_pos hz, Scalar.isZero_iff.mp hz]
    rfl
  · rw [if_neg hz, if_neg hz]
    by_cases ho : Scalar.isOne (a * b)
    · rw [if_pos ho, Scalar.isOne_iff.mp ho]
      rfl
    · rw [if_neg ho, mkNum_eq]
      rfl

namespace Interpretation

variable {M : Interpretation α}

/-! ## Values of factors -/

theorem factors_denote {e : Expr α} (h : M.Regular e) :
    (∀ f ∈ e.factors, M.Regular f) ∧ (e.factors.map M.value).prod = M.value e := by
  induction e with
  | product fs ih =>
    have h := M.regular_product.mp h
    have flat : ((fs.flatMap factors).map M.value).prod =
        (fs.map fun e => (e.factors.map M.value).prod).prod := by
      rw [List.map_flatMap, List.flatMap_def, List.prod_flatten, List.map_map]
      rfl
    rw [factors, factorsList_eq_flatMap, M.value_product h, flat]
    constructor
    · intro f hf
      obtain ⟨e, he, hf⟩ := List.mem_flatMap.mp hf
      exact (ih e he (h e he)).1 f hf
    · exact congrArg List.prod (List.map_congr_left fun e he => (ih e he (h e he)).2)
  | _ => simp [factors, h]

theorem factorsList_denote {es : List (Expr α)} (h : ∀ e ∈ es, M.Regular e) :
    (∀ f ∈ factorsList es, M.Regular f) ∧
      ((factorsList es).map M.value).prod = (es.map M.value).prod := by
  obtain ⟨hr, hv⟩ := factors_denote (M.regular_product.mpr h)
  rw [factors, M.value_product h] at *
  exact ⟨hr, hv⟩

theorem topFactors_denote {e : Expr α} (h : M.Regular e) :
    (∀ f ∈ e.topFactors, M.Regular f) ∧ (e.topFactors.map M.value).prod = M.value e := by
  cases e with
  | product fs => exact ⟨M.regular_product.mp h, (M.value_product (M.regular_product.mp h)).symm⟩
  | _ => simp [topFactors, h]

/-- A regular factor is the power of its base to its exponent. -/
theorem basePower_denotes {f : Expr α} (h : M.Regular f) :
    M.Denotes (power f.basePower.1 f.basePower.2) (M.value f) := by
  have lone {e : Expr α} (h : M.Regular e) : M.Denotes (power e one) (M.value e) := by
    refine ⟨M.regular_power.mpr ⟨1, rfl, h, Scalar.isIntegral_one, by simp⟩, ?_⟩
    rw [one, M.value_power h Scalar.isIntegral_one, Scalar.toInt_one, zpow_one]
  cases f with
  | power b e => exact h.denotes
  | _ => exact lone h

/-! ## Merging powers of one base -/

/-- Powers of a base with integral exponents are merged by adding the exponents. -/
theorem merge_denotes {b : Expr α} {es : List (Expr α)} (hb : M.Regular b)
    (h : ∀ e ∈ es, M.Regular (power b e)) :
    ∃ n, mkSum es = num n ∧ M.Denotes (power b (num n)) ((es.map fun e => M.value (power b e)).prod) := by
  suffices merged : ∃ ns : List α, es = ns.map num ∧ Scalar.isIntegral ns.sum = true ∧
      (M.value b = 0 → 0 ≤ Scalar.toInt ns.sum) ∧
      M.value b ^ Scalar.toInt ns.sum = (es.map fun e => M.value (power b e)).prod by
    obtain ⟨ns, rfl, integral, sign, same⟩ := merged
    refine ⟨ns.sum, mkSum_nums ns, M.regular_power.mpr ⟨_, rfl, hb, integral, ?_⟩, ?_⟩
    · intro negative
      rw [Scalar.isZero_eq_false_iff]
      exact fun hz => absurd (sign hz) (Int.not_le.mpr negative)
    · rw [M.value_power hb integral, same]
  induction es with
  | nil => exact ⟨[], rfl, Scalar.isIntegral_zero, by simp, by simp⟩
  | cons e es ih =>
    obtain ⟨he, hes⟩ := List.forall_mem_cons.mp h
    obtain ⟨ns, rfl, integral, sign, same⟩ := ih hes
    obtain ⟨n, rfl, -, hn, nonzero⟩ := M.regular_power.mp he
    obtain ⟨k, rfl⟩ := Scalar.isIntegral_iff.mp hn
    obtain ⟨m, hm⟩ := Scalar.isIntegral_iff.mp integral
    rw [Scalar.toInt_intCast] at nonzero
    rw [hm, Scalar.toInt_intCast] at sign same
    have total : ((k : α) :: ns).sum = ((k + m : Int) : α) := by
      rw [List.sum_cons, hm, Int.cast_add]
    have first : M.value b = 0 → 0 ≤ k := by
      intro hz
      by_contra negative
      exact Scalar.isZero_eq_false_iff.mp (nonzero (Int.not_le.mp negative)) hz
    refine ⟨(k : α) :: ns, rfl, ?_, ?_, ?_⟩
    · rw [total]; exact Scalar.isIntegral_iff.mpr ⟨_, rfl⟩
    · rw [total, Scalar.toInt_intCast]
      exact fun hz => Int.add_nonneg (first hz) (sign hz)
    · rw [total, Scalar.toInt_intCast, List.map_cons, List.prod_cons, M.value_power hb hn,
        Scalar.toInt_intCast, ← same]
      by_cases hz : M.value b = 0
      · obtain ⟨i, rfl⟩ := Int.eq_ofNat_of_zero_le (first hz)
        obtain ⟨j, rfl⟩ := Int.eq_ofNat_of_zero_le (sign hz)
        rw [← Int.natCast_add, zpow_natCast, zpow_natCast, zpow_natCast, pow_add]
      · exact zpow_add₀ hz k m

/-- What the entries of exponents by base multiply to. -/
def weightPowers (M : Interpretation α) (l : List (Expr α × List (Expr α))) : α :=
  (l.map fun g => (g.2.map fun e => M.value (power g.1 e)).prod).prod

/-- All powers of an entry are regular. -/
def RegularEntry (M : Interpretation α) (g : Expr α × List (Expr α)) : Prop :=
  M.Regular g.1 ∧ ∀ e ∈ g.2, M.Regular (power g.1 e)

/-- The collected powers make up what is not constant. -/
theorem collectFactors_denote {fs : List (Expr α)} (h : ∀ f ∈ fs, M.Regular f) :
    (∀ g ∈ collectFactors fs, M.RegularEntry g) ∧
      M.weightPowers (collectFactors fs) * (fs.filterMap constant?).prod =
        (fs.map M.value).prod := by
  have run (fs : List (Expr α)) (acc : List (Expr α × List (Expr α)))
      (h : ∀ f ∈ fs, M.Regular f) (hacc : ∀ g ∈ acc, M.RegularEntry g) :
      (∀ g ∈ fs.foldl collectFactor acc, M.RegularEntry g) ∧
        M.weightPowers (fs.foldl collectFactor acc) =
          M.weightPowers acc * (fs.map M.value).prod := by
    induction fs generalizing acc with
    | nil => exact ⟨hacc, (mul_one _).symm⟩
    | cons f fs ih =>
      obtain ⟨hf, hfs⟩ := List.forall_mem_cons.mp h
      obtain ⟨hp, hw⟩ := basePower_denotes hf
      obtain ⟨-, -, hb, -⟩ := M.regular_power.mp hp
      have step : (∀ g ∈ collectFactor acc f, M.RegularEntry g) ∧
          M.weightPowers (collectFactor acc f) = M.weightPowers acc * M.value f := by
        unfold collectFactor weightPowers
        rcases adjust_eq [] f.basePower.1 (· ++ [f.basePower.2]) acc with
          ⟨l₁, es, l₂, e, e'⟩ | ⟨l₁, l₂, e, e'⟩
        all_goals
          rw [e', e]
          rw [e] at hacc
          constructor
          · intro g hg
            rcases List.mem_append.mp hg with hg | hg
            · exact hacc g (List.mem_append_left _ hg)
            rcases List.mem_cons.mp hg with rfl | hg
            · refine ⟨hb, fun x hx => ?_⟩
              rcases List.mem_append.mp hx with hx | hx
              · first
                | exact (hacc _ (List.mem_append_right _ List.mem_cons_self)).2 x hx
                | exact absurd hx List.not_mem_nil
              · rw [List.mem_singleton.mp hx]; exact hp
            · exact hacc g (by simp [hg])
          · simp only [List.map_append, List.map_cons, List.map_nil, List.prod_append,
              List.prod_cons, List.prod_nil, hw]
            ring
      obtain ⟨hr, hv⟩ := ih (collectFactor acc f) hfs step.1
      refine ⟨hr, ?_⟩
      rw [List.foldl_cons, hv, step.2, List.map_cons, List.prod_cons, mul_assoc]
  rw [collectFactors_eq]
  obtain ⟨hr, hv⟩ := run (fs.filter (·.constant?.isNone)) []
    (fun f hf => h f (List.mem_filter.mp hf).1) (by simp)
  refine ⟨hr, ?_⟩
  rw [hv, ((perm_constants fs).map M.value).prod_eq, List.map_append, List.prod_append,
    List.map_map]
  simp [weightPowers, Function.comp_def]

/-! ## Products and powers -/

theorem joinFactors_denotes {fs : List (Expr α)} (h : ∀ f ∈ fs, M.Regular f) :
    M.Denotes (joinFactors fs) (fs.map M.value).prod := by
  unfold joinFactors
  split
  · exact denotes_one
  · next e =>
    refine ⟨h e List.mem_cons_self, ?_⟩
    rw [List.map_singleton, List.prod_singleton]
  · exact denotes_product h

theorem assemble_denotes (c : α) {fs : List (Expr α)} (h : ∀ f ∈ fs, M.Regular f) :
    M.Denotes (assemble c fs) (c * (fs.map M.value).prod) := by
  have perm : (sort fs).Perm fs := sortBy_perm _ fs
  have sorted : ∀ f ∈ sort fs, M.Regular f := fun f hf => h f (perm.mem_iff.mp hf)
  rw [assemble_eq]
  by_cases hz : Scalar.isZero c
  · rw [if_pos hz, Scalar.isZero_iff.mp hz, zero_mul]
    exact denotes_zero
  rw [if_neg hz, ← (perm.map M.value).prod_eq]
  by_cases ho : Scalar.isOne c
  · rw [if_pos ho, Scalar.isOne_iff.mp ho, one_mul]
    exact joinFactors_denotes sorted
  · have product := joinFactors_denotes (List.forall_mem_cons.mpr ⟨M.regular_num c, sorted⟩)
    rw [if_neg ho, mkNum_eq]
    rwa [List.map_cons, List.prod_cons, M.value_num] at product

/-- A power of a power multiplies the exponents. -/
theorem power_power_denotes {b : Expr α} {m n : α} (h : M.Regular (power (power b (num m)) (num n))) :
    M.Denotes (power b (num (m * n))) (M.value (power (power b (num m)) (num n))) := by
  obtain ⟨_, ⟨⟩, hp, hn, outer⟩ := M.regular_power.mp h
  obtain ⟨_, ⟨⟩, hb, hm, inner⟩ := M.regular_power.mp hp
  obtain ⟨i, rfl⟩ := Scalar.isIntegral_iff.mp hm
  obtain ⟨j, rfl⟩ := Scalar.isIntegral_iff.mp hn
  have hij : Scalar.isIntegral ((i : α) * j) = true := Scalar.isIntegral_mul hm hn
  rw [M.value_power hb hm, Scalar.isZero_eq_false_iff, Scalar.toInt_intCast,
    Scalar.toInt_intCast] at outer
  rw [Scalar.isZero_eq_false_iff, Scalar.toInt_intCast] at inner
  refine ⟨M.regular_power.mpr ⟨_, rfl, hb, hij, ?_⟩, ?_⟩
  · rw [← Int.cast_mul, Scalar.toInt_intCast, Scalar.isZero_eq_false_iff]
    intro negative hz
    -- below a zero base the inner exponent is not negative, and only zero lets the outer one be
    have hi : 0 ≤ i := by
      by_contra hi
      exact inner (Int.not_le.mp hi) hz
    by_cases hj : j < 0
    · have : i ≠ 0 := by rintro rfl; simp at negative
      exact outer hj (by rw [hz, zero_zpow i this])
    · exact absurd (mul_nonneg hi (Int.not_lt.mp hj)) (Int.not_le.mpr negative)
  · rw [M.value_power hb hij, M.value_power hp hn, M.value_power hb hm, ← Int.cast_mul,
      Scalar.toInt_intCast, Scalar.toInt_intCast, Scalar.toInt_intCast, zpow_mul]

/-- A power of a product is taken of each factor. -/
theorem power_factor_denotes {fs : List (Expr α)} {n : α} (h : M.Regular (power (product fs) (num n))) :
    ∀ f ∈ fs, M.Denotes (power f (num n)) (M.value f ^ Scalar.toInt n) := by
  obtain ⟨_, ⟨⟩, hp, hn, nonzero⟩ := M.regular_power.mp h
  have hfs := M.regular_product.mp hp
  intro f hf
  refine ⟨M.regular_power.mpr ⟨n, rfl, hfs f hf, hn, fun negative => ?_⟩, M.value_power (hfs f hf) hn⟩
  have product := nonzero negative
  rw [Scalar.isZero_eq_false_iff] at *
  rw [M.value_product hfs] at product
  exact fun hz => product (List.prod_eq_zero (List.mem_map.mpr ⟨f, hf, hz⟩))

/-- A canonical product has its value if the canonical powers of the bases in it have theirs. -/
theorem mkProduct_denotes_of {es : List (Expr α)}
    (pow : ∀ b n, b.baseRank < factorRankList es → M.Regular (power b (num n)) →
      M.Denotes (mkPow b (num n)) (M.value (power b (num n))))
    (h : ∀ e ∈ es, M.Regular e) : M.Denotes (mkProduct es) (es.map M.value).prod := by
  obtain ⟨factors, total⟩ := factorsList_denote h
  obtain ⟨entries, collected⟩ := collectFactors_denote factors
  rw [mkProduct_eq_assemble, ← total, ← collected, List.prod_eq_foldl]
  dsimp only
  by_cases hz : Scalar.isZero (((factorsList es).filterMap constant?).foldl (· * ·) 1)
  · rw [if_pos hz, Scalar.isZero_iff.mp hz, mul_zero]
    exact denotes_zero
  rw [if_neg hz]
  have merged : ∀ g ∈ collectFactors (factorsList es),
      M.Denotes (mkPow g.1 (mkSum g.2)) (g.2.map fun e => M.value (power g.1 e)).prod := by
    intro g hg
    obtain ⟨hb, he⟩ := entries g hg
    obtain ⟨n, hn, hr, hv⟩ := merge_denotes hb he
    rw [hn, ← hv]
    exact pow g.1 n (baseRank_of_mem_collectFactorsList hg) hr
  have regular : ∀ f ∈ collectedPowers es, M.Regular f := by
    intro f hf
    obtain ⟨g, hg, hf⟩ := List.mem_flatMap.mp hf
    exact (topFactors_denote (merged g hg).1).1 f hf
  have worth : ((collectedPowers es).map M.value).prod =
      M.weightPowers (collectFactors (factorsList es)) := by
    rw [collectedPowers, List.map_flatMap, List.flatMap_def, List.prod_flatten, List.map_map,
      weightPowers]
    refine congrArg List.prod (List.map_congr_left fun g hg => ?_)
    rw [← (merged g hg).2]
    exact (topFactors_denote (merged g hg).1).2
  have split : ((collectedPowers es).filterMap constant?).foldl (· * ·)
      (((factorsList es).filterMap constant?).foldl (· * ·) 1) =
      ((factorsList es).filterMap constant?).foldl (· * ·) 1 *
        ((collectedPowers es).filterMap constant?).prod := by
    rw [List.prod_eq_foldl, ← @List.foldl_assoc _ (· * ·), mul_one]
  obtain ⟨hr, hv⟩ := assemble_denotes (((collectedPowers es).filterMap constant?).foldl (· * ·)
    (((factorsList es).filterMap constant?).foldl (· * ·) 1))
    fun f hf => regular f (List.mem_filter.mp hf).1
  refine ⟨hr, ?_⟩
  rw [hv, split, ← worth, ((perm_constants (collectedPowers es)).map M.value).prod_eq,
    List.map_append, List.prod_append, List.map_map]
  simp only [Function.comp_def, M.value_num, List.map_id']
  ring

theorem mkPow_mkProduct_denote :
    (∀ b n, M.Regular (power b (num n)) →
      M.Denotes (mkPow b (num n)) (M.value (power b (num n)))) ∧
      ∀ es, (∀ e ∈ es, M.Regular e) → M.Denotes (mkProduct es) (es.map M.value).prod := by
  refine rank_induction ?_ fun es pow => mkProduct_denotes_of fun b n hb => pow b hb n
  intro b power product n h
  obtain ⟨_, ⟨⟩, hb, hn, nonzero⟩ := M.regular_power.mp h
  cases constant : b.constant? with
  | some v =>
    obtain rfl := constant?_eq_some_iff.mp constant
    rw [mkPow_num_num, M.value_power hb hn, M.value_num, mkNum_eq, Scalar.pow_eq_zpow hn]
    exact denotes_num _
  | none =>
  rw [mkPow_integral constant hn]
  by_cases hz : Scalar.isZero n
  · rw [if_pos hz, M.value_power hb hn, Scalar.isZero_iff.mp hz, Scalar.toInt_zero, zpow_zero]
    exact denotes_one
  rw [if_neg hz]
  by_cases ho : Scalar.isOne n
  · rw [if_pos ho, M.value_power hb hn, Scalar.isOne_iff.mp ho, Scalar.toInt_one, zpow_one]
    exact hb.denotes
  rw [if_neg ho]
  cases b with
  | power i ie =>
    obtain ⟨m, rfl, -, -, -⟩ := M.regular_power.mp hb
    dsimp only
    rw [mkProduct_nums]
    obtain ⟨hr, hv⟩ := power_power_denotes h
    rw [← hv]
    exact power i (baseRank_lt_power i (num m)) _ hr
  | product fs =>
    dsimp only
    have each : ∀ f ∈ fs, M.Denotes (mkPow f (num n)) (M.value f ^ Scalar.toInt n) := by
      intro f hf
      obtain ⟨hr, hv⟩ := power_factor_denotes h f hf
      rw [← hv]
      exact power f (baseRank_lt_product hf) n hr
    have all : ∀ e ∈ fs.map (mkPow · (num n)), M.Regular e := by
      intro e he
      obtain ⟨f, hf, rfl⟩ := List.mem_map.mp he
      exact (each f hf).1
    obtain ⟨hr, hv⟩ := product _ (factorRankList_map_mkPow_lt fs (num n)) all
    refine ⟨hr, ?_⟩
    rw [hv, M.value_power hb hn, M.value_product (M.regular_product.mp hb), List.map_map,
      ← zpowGroupHom_apply, ← List.prod_hom, List.map_map]
    exact congrArg List.prod (List.map_congr_left fun f hf => (each f hf).2)
  | _ => exact h.denotes

/-- The canonical power of a regular power is regular and has its value. -/
theorem mkPow_denotes {b : Expr α} {n : α} (h : M.Regular (power b (num n))) :
    M.Denotes (mkPow b (num n)) (M.value (power b (num n))) := mkPow_mkProduct_denote.1 b n h

/-- The canonical product of regular expressions is regular and multiplies their values. -/
theorem mkProduct_denotes {es : List (Expr α)} (h : ∀ e ∈ es, M.Regular e) :
    M.Denotes (mkProduct es) (es.map M.value).prod := mkPow_mkProduct_denote.2 es h

end Interpretation

variable {ℓ : Symbol → Option α}

/-- The canonical power of a regular power is regular and has its value. -/
theorem mkPow_denotes {b : Expr α} {n : α} (h : Regular ℓ (power b (num n))) :
    Denotes ℓ (mkPow b (num n)) (value ℓ (power b (num n))) := (evaluation ℓ).mkPow_denotes h

/-- The canonical product of regular expressions is regular and multiplies their values. -/
theorem mkProduct_denotes {es : List (Expr α)} (h : ∀ e ∈ es, Regular ℓ e) :
    Denotes ℓ (mkProduct es) (es.map (value ℓ)).prod := (evaluation ℓ).mkProduct_denotes h

end

end AnalogCircuit.Expr
