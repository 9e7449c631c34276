import AnalogCircuit.Expr.Terms
/-!
# Products and powers

The canonical product flattens nested products, multiplies the constants and collects the powers of a
common base; the canonical power multiplies an integer exponent into a power and distributes it over a
product. So each is defined by the other.

Both end because of a pair of ranks. `baseRank` bounds the work on an expression that is raised to a
power, `factorRank` the work on one that is multiplied. They look at the nesting of bases only: sums of
exponents may grow on the way, but an exponent is multiplied out only where it was the exponent of a
base. That a result has no higher rank than its operands is carried in the types of the two functions.
-/

namespace AnalogCircuit.Expr

variable {α : Type}

/-! ## Ranks -/

mutual

/-- Bounds the calls below a power of this base. -/
def baseRank : Expr α → Nat
  | product fs => baseRankList fs + 2
  | power b e => max b.baseRank e.factorRank + 1
  | _ => 0

/-- The largest rank of several bases. -/
def baseRankList : List (Expr α) → Nat
  | [] => 0
  | e :: es => max e.baseRank (baseRankList es)

/-- Bounds the calls below a product with this factor. -/
def factorRank : Expr α → Nat
  | num _ => 0
  | product fs => factorRankList fs
  | power b _ => b.baseRank + 1
  | _ => 1

/-- The largest rank of several factors. -/
def factorRankList : List (Expr α) → Nat
  | [] => 0
  | e :: es => max e.factorRank (factorRankList es)

end

theorem factorRankList_le {es : List (Expr α)} {n : Nat} :
    factorRankList es ≤ n ↔ ∀ e ∈ es, e.factorRank ≤ n := by
  induction es with
  | nil => simp [factorRankList]
  | cons e es ih => simp only [factorRankList, Nat.max_le, List.mem_cons, forall_eq_or_imp, ih]

theorem baseRankList_le {es : List (Expr α)} {n : Nat} :
    baseRankList es ≤ n ↔ ∀ e ∈ es, e.baseRank ≤ n := by
  induction es with
  | nil => simp [baseRankList]
  | cons e es ih => simp only [baseRankList, Nat.max_le, List.mem_cons, forall_eq_or_imp, ih]

theorem baseRank_le_of_mem {es : List (Expr α)} {e : Expr α} (h : e ∈ es) :
    e.baseRank ≤ baseRankList es :=
  baseRankList_le.mp (Nat.le_refl _) e h

theorem factorRankList_map_val {n : Nat} (rs : List { r : Expr α // r.factorRank ≤ n }) :
    factorRankList (rs.map (·.val)) ≤ n := by
  rw [factorRankList_le]
  intro e he
  obtain ⟨r, _, rfl⟩ := List.mem_map.mp he
  exact r.property

/-- The base of a power ranks below it. -/
theorem baseRank_lt_power (b e : Expr α) : b.baseRank < (power b e).baseRank := by
  simp only [baseRank]; omega

/-- The exponent of a base times a constant ranks below it. -/
theorem factorRankList_lt_power (b e : Expr α) (v : α) :
    factorRankList [e, num v] < (power b e).baseRank := by
  simp only [baseRank, factorRankList, factorRank]; omega

/-- The factors of a base, raised to a power, rank below it. -/
theorem baseRankList_lt (fs : List (Expr α)) : baseRankList fs + 1 < (product fs).baseRank := by
  simp only [baseRank]; omega

/-- A factor ranks at most one above the same expression as a base. -/
theorem factorRank_le_baseRank (e : Expr α) : e.factorRank ≤ e.baseRank + 1 := by
  match e with
  | num _ | sym _ | sum _ | call _ _ | apply _ _ | compare _ _ _ | select _ _ _ | derivative _ _
  | integral _ _ => simp [factorRank]
  | power b e => simp only [factorRank, baseRank]; omega
  | product fs =>
    simp only [factorRank, factorRankList_le]
    intro f hf
    have := factorRank_le_baseRank f
    have := baseRank_le_of_mem hf
    simp only [baseRank]; omega

/-! ## Factors -/

mutual

/-- The factors of an expression, those of nested products in their place. -/
def factors : Expr α → List (Expr α)
  | product fs => factorsList fs
  | e => [e]

/-- The factors of several expressions. -/
def factorsList : List (Expr α) → List (Expr α)
  | [] => []
  | e :: es => e.factors ++ factorsList es

end

mutual

theorem factorRank_of_mem_factors {e f : Expr α} (h : f ∈ e.factors) :
    f.factorRank ≤ e.factorRank := by
  match e with
  | num _ | sym _ | sum _ | call _ _ | apply _ _ | compare _ _ _ | select _ _ _ | derivative _ _
  | integral _ _ | power _ _ =>
    simp only [factors, List.mem_singleton] at h
    exact Nat.le_of_eq (congrArg factorRank h)
  | product fs =>
    simp only [factors] at h
    exact factorRank_of_mem_factorsList h

theorem factorRank_of_mem_factorsList {es : List (Expr α)} {f : Expr α}
    (h : f ∈ factorsList es) : f.factorRank ≤ factorRankList es := by
  match es with
  | [] => simp [factorsList] at h
  | e :: es =>
    simp only [factorsList, List.mem_append] at h
    simp only [factorRankList]
    rcases h with h | h
    · exact Nat.le_trans (factorRank_of_mem_factors h) (Nat.le_max_left ..)
    · exact Nat.le_trans (factorRank_of_mem_factorsList h) (Nat.le_max_right ..)

end

mutual

theorem factors_ne_product {e f : Expr α} (h : f ∈ e.factors) (gs : List (Expr α)) :
    f ≠ product gs := by
  match e with
  | num _ | sym _ | sum _ | call _ _ | apply _ _ | compare _ _ _ | select _ _ _ | derivative _ _
  | integral _ _ | power _ _ =>
    simp only [factors, List.mem_singleton] at h
    rw [h]; simp
  | product fs =>
    simp only [factors] at h
    exact factorsList_ne_product h gs

theorem factorsList_ne_product {es : List (Expr α)} {f : Expr α} (h : f ∈ factorsList es)
    (gs : List (Expr α)) : f ≠ product gs := by
  match es with
  | [] => simp [factorsList] at h
  | e :: es =>
    simp only [factorsList, List.mem_append] at h
    rcases h with h | h
    · exact factors_ne_product h gs
    · exact factorsList_ne_product h gs

end

/-- The top-level factors of a finished power. -/
def topFactors : Expr α → List (Expr α)
  | product fs => fs
  | e => [e]

theorem factorRank_of_mem_topFactors {e f : Expr α} (h : f ∈ e.topFactors) :
    f.factorRank ≤ e.factorRank := by
  cases e
  case product fs => exact factorRankList_le.mp (Nat.le_refl _) f h
  all_goals
    simp only [topFactors, List.mem_singleton] at h
    exact Nat.le_of_eq (congrArg factorRank h)

variable [Scalar α]

/-- A factor as a base and its exponent. -/
def basePower : Expr α → Expr α × Expr α
  | power b e => (b, e)
  | e => (e, one)

/-- The factors that are not constant, by base; the exponents of a base keep their order. -/
def collectFactors (fs : List (Expr α)) : List (Expr α × List (Expr α)) :=
  fs.foldl (fun powers f =>
    match f with
    | num _ => powers
    | f => let (b, e) := f.basePower
           adjust [] b (· ++ [e]) powers) []

theorem baseRank_basePower_lt {f : Expr α} (h : f.constant? = none) {n : Nat}
    (hp : ∀ fs, f ≠ product fs) (hn : f.factorRank ≤ n) : f.basePower.1.baseRank < n := by
  cases f <;> simp_all [constant?, basePower, baseRank, factorRank] <;> omega

theorem baseRank_of_mem_collectFactors {fs : List (Expr α)} {n : Nat}
    (hn : ∀ f ∈ fs, f.factorRank ≤ n) (hp : ∀ f ∈ fs, ∀ gs, f ≠ product gs)
    {g : Expr α × List (Expr α)} (h : g ∈ collectFactors fs) : g.1.baseRank < n := by
  have key : ∀ (fs : List (Expr α)) (acc : List (Expr α × List (Expr α))),
      (∀ f ∈ fs, f.factorRank ≤ n) → (∀ f ∈ fs, ∀ gs, f ≠ product gs) →
      (∀ g ∈ acc, g.1.baseRank < n) →
      ∀ g ∈ fs.foldl (fun powers f =>
        match f with
        | num _ => powers
        | f => let (b, e) := f.basePower
               adjust [] b (· ++ [e]) powers) acc, g.1.baseRank < n := by
    intro fs
    induction fs with
    | nil => intro acc _ _ ha g hg; exact ha g hg
    | cons f fs ih =>
      intro acc hn hp ha
      refine ih _ (fun f hf => hn f (List.mem_cons_of_mem _ hf))
        (fun f hf => hp f (List.mem_cons_of_mem _ hf)) ?_
      intro g hg
      dsimp only at hg
      split at hg
      · exact ha g hg
      · next hf =>
        rcases mem_adjust hg with h | ⟨q, hq, e⟩
        · rw [h]
          refine baseRank_basePower_lt ?_ (hp f List.mem_cons_self) (hn f List.mem_cons_self)
          cases f <;> simp_all [constant?]
        · rw [← e]; exact ha q hq
  exact key fs [] hn hp (by simp) g h

/-! ## Products and powers -/

/-- A base that is collected from factors ranks below them. -/
theorem baseRank_of_mem_collectFactorsList {es : List (Expr α)} {g : Expr α × List (Expr α)}
    (h : g ∈ collectFactors (factorsList es)) : g.1.baseRank < factorRankList es :=
  baseRank_of_mem_collectFactors (fun _ hf => factorRank_of_mem_factorsList hf)
    (fun _ hf => factorsList_ne_product hf) h

/-- The product of a coefficient and of factors that are canonical together. -/
def assemble (coefficient : α) (fs : List (Expr α)) : Expr α :=
  if Scalar.isZero coefficient then zero
  else
    let out := sort fs
    let out := if Scalar.isOne coefficient then out else mkNum coefficient :: out
    match out with
    | [] => one
    | [e] => e
    | es => product es

theorem factorRank_assemble {c : α} {fs : List (Expr α)} {n : Nat}
    (h : ∀ f ∈ fs, f.factorRank ≤ n) : (assemble c fs).factorRank ≤ n := by
  unfold assemble
  split
  · simp [zero, factorRank]
  · have sorted : ∀ f ∈ sort fs, f.factorRank ≤ n := by
      intro f hf
      exact h f ((sortBy_perm _ fs).mem_iff.mp hf)
    have all : ∀ f ∈ (if Scalar.isOne c then sort fs else mkNum c :: sort fs),
        f.factorRank ≤ n := by
      intro f hf
      split at hf
      · exact sorted f hf
      · rcases List.mem_cons.mp hf with h | h
        · rw [h]; simp [mkNum, factorRank]
        · exact sorted f h
    dsimp only
    split
    · simp [one, factorRank]
    · next e he => exact all e (by rw [he]; exact List.mem_cons_self)
    · next es _ _ =>
      simp only [factorRank, factorRankList_le]
      exact all

mutual

/-- `mkPow` together with the bound on the rank of its result. -/
def powRanked (base exponent : Expr α) : { r : Expr α // r.factorRank ≤ base.baseRank + 1 } :=
  match exponent with
  | num e =>
    match base with
    | num b => ⟨mkNum (Scalar.pow b e), by simp [mkNum, factorRank]⟩
    | base =>
      if Scalar.isZero e then ⟨one, by simp [one, factorRank]⟩
      else if Scalar.isOne e then ⟨base, factorRank_le_baseRank base⟩
      else if Scalar.isIntegral e then
        match base with
        | power inner innerExponent =>
          let r := powRanked inner (productRanked [innerExponent, num e]).val
          ⟨r.val, Nat.le_trans r.property (Nat.succ_le_succ (Nat.le_of_lt (baseRank_lt_power ..)))⟩
        | product fs =>
          let rs : List { r : Expr α // r.factorRank ≤ baseRankList fs + 1 } :=
            fs.attach.map fun ⟨f, hf⟩ =>
              let r := powRanked f (num e)
              ⟨r.val, Nat.le_trans r.property (Nat.succ_le_succ (baseRank_le_of_mem hf))⟩
          let r := productRanked (rs.map (·.val))
          ⟨r.val, Nat.le_trans r.property <| Nat.le_trans (factorRankList_map_val rs) <|
            Nat.le_succ_of_le (Nat.le_of_lt (baseRankList_lt fs))⟩
        | base => ⟨power base (num e), by simp [factorRank]⟩
      else ⟨power base (num e), by simp [factorRank]⟩
  | exponent =>
    match base with
    | num b =>
      if Scalar.isOne b then ⟨one, by simp [one, factorRank]⟩
      else ⟨power (num b) exponent, by simp [factorRank]⟩
    | base => ⟨power base exponent, by simp [factorRank]⟩
termination_by base.baseRank
decreasing_by
  · exact factorRankList_lt_power inner innerExponent e
  · exact baseRank_lt_power inner innerExponent
  · exact Nat.lt_of_le_of_lt (baseRank_le_of_mem hf)
      (Nat.lt_of_le_of_lt (Nat.le_succ _) (baseRankList_lt fs))
  · exact Nat.lt_of_le_of_lt (factorRankList_map_val rs) (baseRankList_lt fs)

/-- `mkProduct` together with the bound on the rank of its result. -/
def productRanked (es : List (Expr α)) : { r : Expr α // r.factorRank ≤ factorRankList es } :=
  let fs := factorsList es
  let coefficient := (fs.filterMap constant?).foldl (· * ·) (1 : α)
  if Scalar.isZero coefficient then ⟨zero, by simp [zero, factorRank]⟩
  else
    let rs : List { r : Expr α // r.factorRank ≤ factorRankList es } :=
      (collectFactors fs).attach.map fun ⟨g, hg⟩ =>
        let r := powRanked g.1 (mkSum g.2)
        ⟨r.val, Nat.le_trans r.property (baseRank_of_mem_collectFactorsList hg)⟩
    let powers := rs.flatMap fun r => r.val.topFactors
    let coefficient := (powers.filterMap constant?).foldl (· * ·) coefficient
    ⟨assemble coefficient (powers.filter fun f => f.constant?.isNone), by
      refine factorRank_assemble ?_
      intro f hf
      obtain ⟨r, _, hf⟩ := List.mem_flatMap.mp (List.mem_filter.mp hf).1
      exact Nat.le_trans (factorRank_of_mem_topFactors hf) r.property⟩
termination_by factorRankList es
decreasing_by
  exact baseRank_of_mem_collectFactorsList ‹_›

end

/-- The canonical power: exponents zero and one vanish, constants are folded, and an integer exponent
is multiplied into a power or distributed over a product. -/
def mkPow (base exponent : Expr α) : Expr α := (powRanked base exponent).val

/-- The canonical product of a list of expressions. -/
def mkProduct (es : List (Expr α)) : Expr α := (productRanked es).val

/-! ## The two functions by each other -/

/-- What a product is in terms of powers: the collected bases, each to the sum of its exponents. -/
theorem mkProduct_eq (es : List (Expr α)) :
    mkProduct es =
      let fs := factorsList es
      let coefficient := (fs.filterMap constant?).foldl (· * ·) (1 : α)
      if Scalar.isZero coefficient then zero
      else
        let powers := (collectFactors fs).flatMap fun g => (mkPow g.1 (mkSum g.2)).topFactors
        assemble ((powers.filterMap constant?).foldl (· * ·) coefficient)
          (powers.filter fun f => f.constant?.isNone) := by
  unfold mkProduct
  rw [productRanked]
  dsimp only
  split
  · rfl
  · have same : ((collectFactors (factorsList es)).attach.map
          (fun (x : { g // g ∈ collectFactors (factorsList es) }) =>
            (⟨(powRanked x.1.1 (mkSum x.1.2)).val,
              Nat.le_trans (powRanked x.1.1 (mkSum x.1.2)).property
                (baseRank_of_mem_collectFactorsList x.2)⟩ :
              { r : Expr α // r.factorRank ≤ factorRankList es }))).flatMap
          (fun r => r.val.topFactors)
        = (collectFactors (factorsList es)).flatMap
          (fun g => (mkPow g.1 (mkSum g.2)).topFactors) := by
      conv => rhs; rw [← List.attach_map_subtype_val (collectFactors (factorsList es))]
      rw [List.flatMap_map, List.flatMap_map]
      rfl
    dsimp only
    rw [same]

/-- What a power is in terms of products and smaller powers. -/
theorem mkPow_eq (base exponent : Expr α) :
    mkPow base exponent =
      match exponent with
      | num e =>
        match base with
        | num b => mkNum (Scalar.pow b e)
        | base =>
          if Scalar.isZero e then one
          else if Scalar.isOne e then base
          else if Scalar.isIntegral e then
            match base with
            | power inner innerExponent => mkPow inner (mkProduct [innerExponent, num e])
            | product fs => mkProduct (fs.map fun f => mkPow f (num e))
            | base => power base (num e)
          else power base (num e)
      | exponent =>
        match base with
        | num b => if Scalar.isOne b then one else power (num b) exponent
        | base => power base exponent := by
  unfold mkPow
  rw [powRanked.eq_def]
  cases exponent <;> cases base <;> dsimp only <;> (repeat' split) <;> try rfl
  case num.product.isFalse.isFalse.isTrue v fs _ _ _ =>
    have same : (fs.attach.map fun x =>
          (⟨(powRanked x.1 (num v)).val, Nat.le_trans (powRanked x.1 (num v)).property
            (Nat.succ_le_succ (baseRank_le_of_mem x.2))⟩ :
              { r : Expr α // r.factorRank ≤ baseRankList fs + 1 })).map (·.val)
        = fs.map fun f => (powRanked f (num v)).val := by
      conv => rhs; rw [← List.attach_map_subtype_val fs]
      rw [List.map_map, List.map_map]
      rfl
    unfold mkProduct
    rw [← same]

end AnalogCircuit.Expr
