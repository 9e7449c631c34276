import AnalogCircuit.Proofs.Closure
import AnalogCircuit.Proofs.Collecting
/-!
# What the constructors leave behind

Whatever the canonical constructors build out of tidy expressions is tidy: the terms of a sum are sorted, none is
zero and no two differ in their coefficients only; the factors of a product are sorted, none is a product, and only
the first may be a constant, which then is neither zero nor one; every other node is what its constructor makes of
its parts. Nothing of this depends on how numbers are added and multiplied.

That a sum has no sum among its terms, and that the factors of a product have different bases, is not part of it.
-/

namespace AnalogCircuit.Expr

variable {α : Type} [Scalar α]

/-! ## Tidy nodes -/

/-- A factor that is neither folded into the coefficient nor flattened. -/
structure IsFactor (f : Expr α) : Prop where
  nonconstant : f.constant? = none
  unnested : ∀ gs, f ≠ product gs

/-- Terms as a sum leaves them. -/
structure TidyTerms (ts : List (Expr α)) : Prop where
  sorted : Sorted ts
  nonzero : ∀ t ∈ ts, t.isZero = false
  /-- No two terms differ in their coefficients only. -/
  distinct : (ts.map (·.splitCoefficient.2)).Nodup

/-- Factors as a product leaves them. -/
inductive TidyFactors : List (Expr α) → Prop
  | plain {gs : List (Expr α)} (sorted : Sorted gs) (factor : ∀ g ∈ gs, IsFactor g)
      (several : 2 ≤ gs.length) : TidyFactors gs
  | scaled {c : α} {gs : List (Expr α)} (sorted : Sorted gs) (factor : ∀ g ∈ gs, IsFactor g)
      (some : gs ≠ []) (nonzero : Scalar.isZero c = false) (proper : Scalar.isOne c = false) :
      TidyFactors (num c :: gs)

/-- A node as its constructor leaves it. -/
def TidyNode : Expr α → Prop
  | sum ts => 2 ≤ ts.length ∧ TidyTerms ts
  | product fs => TidyFactors fs
  | e => mapChildren id e = e

/-- All nodes are as their constructors leave them. -/
def IsTidy (e : Expr α) : Prop := Everywhere TidyNode e

variable {e : Expr α} {es ts fs gs : List (Expr α)} {c : α}

theorem isTidy_iff : IsTidy e ↔ TidyNode e ∧ ∀ x ∈ e.children, IsTidy x := everywhere_iff

@[simp] theorem isTidy_num (v : α) : IsTidy (num v) := isTidy_iff.mpr ⟨rfl, by simp [children]⟩

@[simp] theorem isTidy_sym (s : Symbol) : IsTidy (sym s : Expr α) := isTidy_iff.mpr ⟨rfl, by simp [children]⟩

@[simp] theorem isTidy_zero : IsTidy (zero : Expr α) := isTidy_num 0

@[simp] theorem isTidy_one : IsTidy (one : Expr α) := isTidy_num 1

@[simp] theorem isTidy_mkNum (v : α) : IsTidy (mkNum v) := isTidy_num _

theorem isTidy_sum : IsTidy (sum ts) ↔ (2 ≤ ts.length ∧ TidyTerms ts) ∧ ∀ t ∈ ts, IsTidy t := isTidy_iff

theorem isTidy_product : IsTidy (product fs) ↔ TidyFactors fs ∧ ∀ f ∈ fs, IsTidy f := isTidy_iff

theorem isTidy_power {b x : Expr α} :
    IsTidy (power b x) ↔ mkPow b x = power b x ∧ IsTidy b ∧ IsTidy x := by
  rw [isTidy_iff]
  simp [TidyNode, mapChildren, children]

theorem IsTidy.child (h : IsTidy e) {x : Expr α} (hx : x ∈ e.children) : IsTidy x := (isTidy_iff.mp h).2 x hx

omit [Scalar α] in
theorem two_le_length (empty : es ≠ []) (lone : ∀ e, es ≠ [e]) : 2 ≤ es.length := by
  rcases es with _ | ⟨e, _ | ⟨e', es⟩⟩
  · exact absurd rfl empty
  · exact absurd rfl (lone e)
  · simp

/-- A constant that is kept is not zero. -/
theorem mkNum_of_nonzero (h : Scalar.isZero c = false) : mkNum c = num c := by
  simp [mkNum, h]

omit [Scalar α] in
/-- What is put together from several factors is their product. -/
theorem ofFactors_of_several (several : 2 ≤ fs.length) : ofFactors fs = product fs := by
  rcases fs with _ | ⟨f, _ | ⟨g, fs⟩⟩
  · rfl
  · cases Nat.lt_irrefl 1 several
  · rfl

theorem TidyFactors.unnested (h : TidyFactors fs) : ∀ f ∈ fs, ∀ gs, f ≠ product gs := by
  cases h with
  | plain _ factor _ => exact fun f hf => (factor f hf).unnested
  | scaled _ factor _ _ _ =>
    refine List.forall_mem_cons.mpr ⟨?_, fun f hf => (factor f hf).unnested⟩
    rintro gs ⟨⟩

/-! ## Coefficients -/

/-- A term that is nothing but its coefficient and has none in front. -/
structure IsBare (k : Expr α) : Prop where
  nonconstant : k.constant? = none
  unscaled : ∀ c fs, k ≠ product (num c :: fs)

theorem IsBare.splitCoefficient_eq {k : Expr α} (h : IsBare k) : k.splitCoefficient = (1, k) := by
  unfold splitCoefficient
  split
  · exact absurd rfl (h.unscaled _ _)
  · cases h.nonconstant
  · rfl

omit [Scalar α] in
theorem IsFactor.isBare {f : Expr α} (h : IsFactor f) : IsBare f := ⟨h.nonconstant, fun _ _ => h.unnested _⟩

omit [Scalar α] in
theorem isBare_product (h : ∀ g ∈ gs, IsFactor g) : IsBare (product gs) := by
  refine ⟨rfl, ?_⟩
  rintro c fs ⟨⟩
  cases (h (num c) List.mem_cons_self).nonconstant

/-- What stands behind a coefficient is tidy on its own. -/
theorem IsTidy.ofFactors (tidy : ∀ g ∈ gs, IsTidy g) (sorted : Sorted gs) (factor : ∀ g ∈ gs, IsFactor g)
    (some : gs ≠ []) : IsTidy (ofFactors gs) ∧ IsBare (ofFactors gs) := by
  unfold Expr.ofFactors
  split
  · next g => exact ⟨tidy g List.mem_cons_self, (factor g List.mem_cons_self).isBare⟩
  · next lone =>
    have several := two_le_length some lone
    exact ⟨isTidy_product.mpr ⟨.plain sorted factor several, tidy⟩, isBare_product factor⟩

theorem IsTidy.splitCoefficient {t : Expr α} (h : IsTidy t) (variable' : t.constant? = none) :
    IsTidy t.splitCoefficient.2 ∧ IsBare t.splitCoefficient.2 := by
  by_cases scaled : ∃ c fs, t = product (num c :: fs)
  · obtain ⟨c, fs, rfl⟩ := scaled
    obtain ⟨factors, tidy⟩ := isTidy_product.mp h
    cases factors with
    | plain _ factor _ => cases (factor (num c) List.mem_cons_self).nonconstant
    | scaled sorted factor some _ _ =>
      exact IsTidy.ofFactors (fun g hg => tidy g (List.mem_cons_of_mem _ hg)) sorted factor some
  · have bare : IsBare t := ⟨variable', fun c fs e => scaled ⟨c, fs, e⟩⟩
    rw [bare.splitCoefficient_eq]
    exact ⟨h, bare⟩

/-- A coefficient is put in front of the factors of a term. -/
theorem scale_ofFactors (factor : ∀ g ∈ gs, IsFactor g) (some : gs ≠ []) (nonzero : Scalar.isZero c = false)
    (proper : Scalar.isOne c = false) : scale c (ofFactors gs) = product (num c :: gs) := by
  unfold scale
  rw [proper, mkNum_of_nonzero nonzero]
  rcases gs with _ | ⟨g, _ | ⟨g', gs⟩⟩
  · exact absurd rfl some
  · obtain ⟨nonconstant, unnested⟩ := factor g List.mem_cons_self
    cases g with
    | num v => cases nonconstant
    | product fs => exact absurd rfl (unnested fs)
    | _ => rfl
  · rfl

/-- A term without a coefficient has factors. -/
theorem IsTidy.exists_ofFactors {k : Expr α} (h : IsTidy k) (bare : IsBare k) :
    ∃ gs, k = Expr.ofFactors gs ∧ gs ≠ [] ∧ Sorted gs ∧ (∀ g ∈ gs, IsFactor g) ∧ ∀ g ∈ gs, IsTidy g := by
  by_cases nested : ∃ fs, k = product fs
  · obtain ⟨fs, rfl⟩ := nested
    obtain ⟨factors, tidy⟩ := isTidy_product.mp h
    cases factors with
    | scaled _ _ _ _ _ => exact absurd rfl (bare.unscaled _ _)
    | plain sorted factor several =>
      have some : fs ≠ [] := List.ne_nil_of_length_pos (Nat.lt_of_lt_of_le Nat.two_pos several)
      exact ⟨fs, (ofFactors_of_several several).symm, some, sorted, factor, tidy⟩
  · have factor : IsFactor k := ⟨bare.nonconstant, fun fs e => nested ⟨fs, e⟩⟩
    exact ⟨[k], rfl, by simp, List.pairwise_singleton _ _, by simpa using factor, by simpa using h⟩

/-- A coefficient can be put in front of a term that has none, and be taken off again. -/
theorem IsTidy.scale {k : Expr α} (h : IsTidy k) (bare : IsBare k) (nonzero : Scalar.isZero c = false) :
    IsTidy (scale c k) ∧ (scale c k).constant? = none ∧ (scale c k).splitCoefficient.2 = k := by
  by_cases proper : Scalar.isOne c
  · have plain : Expr.scale c k = k := by unfold Expr.scale; exact if_pos proper
    rw [plain, bare.splitCoefficient_eq]
    exact ⟨h, bare.nonconstant, rfl⟩
  have proper := Bool.eq_false_iff.mpr proper
  obtain ⟨gs, rfl, some, sorted, factor, tidy⟩ := h.exists_ofFactors bare
  rw [scale_ofFactors factor some nonzero proper]
  refine ⟨isTidy_product.mpr ⟨.scaled sorted factor some nonzero proper, ?_⟩, rfl, rfl⟩
  exact List.forall_mem_cons.mpr ⟨isTidy_num c, tidy⟩

/-! ## Sums -/

theorem IsTidy.terms (h : IsTidy e) : ∀ t ∈ e.terms, IsTidy t := by
  induction e with
  | sum ts ih =>
    rw [Expr.terms, termsList_eq_flatMap]
    intro t ht
    obtain ⟨e, he, ht⟩ := List.mem_flatMap.mp ht
    exact ih e he (h.child he) t ht
  | _ => simp [Expr.terms, h]

variable [Std.TransCmp (Scalar.order (α := α))] [Std.LawfulEqCmp (Scalar.order (α := α))]

/-- Terms remain tidy when they are put in order. -/
theorem tidyTerms_sort (nonzero : ∀ t ∈ ts, t.isZero = false)
    (distinct : (ts.map (·.splitCoefficient.2)).Nodup) : TidyTerms (sort ts) := by
  have perm : (sort ts).Perm ts := sortBy_perm _ ts
  exact ⟨sorted_sort ts, fun t ht => nonzero t (perm.mem_iff.mp ht), (perm.map _).nodup_iff.mpr distinct⟩

omit [Std.TransCmp (Scalar.order (α := α))] in
/-- An entry that does not vanish gives a tidy term with the same key. -/
theorem isTidy_entry {p : Expr α × α} (h : ∀ t ∈ ts, IsTidy t) (entry : p ∈ collectTerms ts)
    (nonzero : Scalar.isZero p.2 = false) :
    IsTidy (Expr.scale p.2 p.1) ∧ (Expr.scale p.2 p.1).isZero = false ∧
      (Expr.scale p.2 p.1).splitCoefficient.2 = p.1 ∧ p.1 ≠ one := by
  obtain ⟨tidy, bare⟩ := forall_mem_collectTerms (P := fun k => IsTidy k ∧ IsBare k)
    (fun t ht => (h t ht).splitCoefficient) p entry
  obtain ⟨tidy, variable', key⟩ := tidy.scale bare nonzero
  refine ⟨tidy, ?_, key, ?_⟩
  · generalize Expr.scale p.2 p.1 = t at variable'
    cases t <;> first | rfl | cases variable'
  · intro unit
    rw [unit] at bare
    cases bare.nonconstant

/-- What a sum of tidy expressions adds up is tidy term by term and together. -/
theorem isTidy_summands {es : List (Expr α)} (h : ∀ e ∈ es, IsTidy e) :
    (∀ t ∈ summands es, IsTidy t) ∧ TidyTerms (sort (summands es)) := by
  have terms : ∀ t ∈ termsList es, IsTidy t := by
    rw [termsList_eq_flatMap, List.forall_mem_flatMap]
    exact fun e he => (h e he).terms
  have entry : ∀ p ∈ (collectTerms (termsList es)).filter fun p => !Scalar.isZero p.2,
      IsTidy (Expr.scale p.2 p.1) ∧ (Expr.scale p.2 p.1).isZero = false ∧
        (Expr.scale p.2 p.1).splitCoefficient.2 = p.1 ∧ p.1 ≠ one := by
    intro p hp
    obtain ⟨entry, nonzero⟩ := List.mem_filter.mp hp
    exact isTidy_entry terms entry (by simpa using nonzero)
  have keys : (((collectTerms (termsList es)).filter fun p => !Scalar.isZero p.2).map (·.1)).Nodup :=
    (List.filter_sublist.map _).nodup (keyed_collectTerms _).nodup
  unfold summands
  generalize (collectTerms (termsList es)).filter (fun p => !Scalar.isZero p.2) = entries at entry keys ⊢
  generalize ((termsList es).filterMap constant?).foldl (· + ·) (0 : α) = total
  have same : (entries.map fun p => Expr.scale p.2 p.1).map (·.splitCoefficient.2) = entries.map (·.1) := by
    rw [List.map_map]
    exact List.map_congr_left fun p hp => (entry p hp).2.2.1
  have distinct : ((entries.map fun p => Expr.scale p.2 p.1).map (·.splitCoefficient.2)).Nodup := same ▸ keys
  have tidy : ∀ t ∈ entries.map fun p => Expr.scale p.2 p.1, IsTidy t := by
    rw [List.forall_mem_map]
    exact fun p hp => (entry p hp).1
  have variable' : ∀ t ∈ entries.map fun p => Expr.scale p.2 p.1, t.isZero = false := by
    rw [List.forall_mem_map]
    exact fun p hp => (entry p hp).2.1
  by_cases vanishes : Scalar.isZero total
  · simp only [if_pos vanishes, List.append_nil]
    exact ⟨tidy, tidyTerms_sort variable' distinct⟩
  · have nonzero := Bool.eq_false_iff.mpr vanishes
    simp only [if_neg vanishes, mkNum_of_nonzero nonzero]
    constructor
    · exact List.forall_mem_append.mpr ⟨tidy, by simp⟩
    · refine tidyTerms_sort (List.forall_mem_append.mpr ⟨variable', by simpa [isZero] using nonzero⟩) ?_
      -- The constant has the key one, which no entry has.
      rw [List.map_append, List.nodup_append, same]
      refine ⟨keys, by simp, ?_⟩
      rintro k hk _ unit rfl
      obtain ⟨p, hp, rfl⟩ := List.mem_map.mp hk
      exact (entry p hp).2.2.2 (by simpa [Expr.splitCoefficient] using unit)

theorem isTidy_mkSum {es : List (Expr α)} (h : ∀ e ∈ es, IsTidy e) : IsTidy (mkSum es) := by
  obtain ⟨tidy, terms⟩ := isTidy_summands h
  have tidy : ∀ t ∈ sort (summands es), IsTidy t := fun t ht => tidy t ((sortBy_perm _ _).mem_iff.mp ht)
  rw [mkSum_eq]
  unfold ofTerms
  split
  · exact isTidy_zero
  · next e lone => exact tidy e (by rw [lone]; exact List.mem_cons_self)
  · next empty lone =>
    exact isTidy_sum.mpr ⟨⟨two_le_length empty lone, terms⟩, tidy⟩

/-! ## Products and powers -/

omit [Std.TransCmp (Scalar.order (α := α))] [Std.LawfulEqCmp (Scalar.order (α := α))] in
theorem IsTidy.factors (h : IsTidy e) : ∀ f ∈ e.factors, IsTidy f := by
  induction e with
  | product fs ih =>
    rw [Expr.factors, factorsList_eq_flatMap]
    intro f hf
    obtain ⟨e, he, hf⟩ := List.mem_flatMap.mp hf
    exact ih e he (h.child he) f hf
  | _ => simp [Expr.factors, h]

omit [Std.TransCmp (Scalar.order (α := α))] [Std.LawfulEqCmp (Scalar.order (α := α))] in
theorem IsTidy.basePower {f : Expr α} (h : IsTidy f) : IsTidy f.basePower.1 ∧ IsTidy f.basePower.2 := by
  cases f with
  | power b x => exact (isTidy_power.mp h).2
  | _ => exact ⟨h, isTidy_one⟩

omit [Std.TransCmp (Scalar.order (α := α))] [Std.LawfulEqCmp (Scalar.order (α := α))] in
theorem IsTidy.topFactors (h : IsTidy e) : ∀ f ∈ e.topFactors, IsTidy f ∧ ∀ gs, f ≠ product gs := by
  cases e with
  | product fs =>
    obtain ⟨factors, tidy⟩ := isTidy_product.mp h
    exact fun f hf => ⟨tidy f hf, factors.unnested f hf⟩
  | _ => simp [Expr.topFactors, h]

theorem isTidy_assemble (tidy : ∀ f ∈ fs, IsTidy f) (factor : ∀ f ∈ fs, IsFactor f) :
    IsTidy (assemble c fs) := by
  have perm : (sort fs).Perm fs := sortBy_perm _ fs
  have sorted := sorted_sort fs
  have tidy : ∀ f ∈ sort fs, IsTidy f := fun f hf => tidy f (perm.mem_iff.mp hf)
  have factor : ∀ f ∈ sort fs, IsFactor f := fun f hf => factor f (perm.mem_iff.mp hf)
  rw [assemble_eq]
  generalize sort fs = gs at sorted tidy factor
  by_cases nonzero : Scalar.isZero c
  · rw [if_pos nonzero]
    exact isTidy_zero
  rw [if_neg nonzero]
  have nonzero := Bool.eq_false_iff.mpr nonzero
  by_cases proper : Scalar.isOne c
  · rw [if_pos proper]
    unfold joinFactors
    split
    · exact isTidy_one
    · next f => exact tidy f List.mem_cons_self
    · next empty lone => exact isTidy_product.mpr ⟨.plain sorted factor (two_le_length empty lone), tidy⟩
  · rw [if_neg proper, mkNum_of_nonzero nonzero]
    have proper := Bool.eq_false_iff.mpr proper
    rcases gs with _ | ⟨g, gs⟩
    · exact isTidy_num c
    · refine isTidy_product.mpr ⟨.scaled sorted factor (List.cons_ne_nil g gs) nonzero proper, ?_⟩
      exact List.forall_mem_cons.mpr ⟨isTidy_num c, tidy⟩

/-- What a power can be. -/
inductive Raised (b x : Expr α) : Expr α → Prop
  | plain : Raised b x (power b x)
  | constant (v : α) : Raised b x (num v)
  | base : Raised b x b
  /-- The exponents of a power are multiplied. -/
  | power {i y : Expr α} {n : α} (base : b = power i y) (exponent : x = num n) :
      Raised b x (mkPow i (mkProduct [y, num n]))
  /-- The exponent is distributed over a product. -/
  | product {fs : List (Expr α)} {n : α} (base : b = product fs) (exponent : x = num n) :
      Raised b x (mkProduct (fs.map (mkPow · (num n))))

omit [Std.TransCmp (Scalar.order (α := α))] [Std.LawfulEqCmp (Scalar.order (α := α))] in
theorem raised_mkPow (b x : Expr α) : Raised b x (mkPow b x) := by
  rw [mkPow_eq]
  split
  · next n =>
    split
    · exact .constant _
    split
    · exact .constant 1
    split
    · exact .base
    split
    · split
      · exact .power rfl rfl
      · exact .product rfl rfl
      · exact .plain
    · exact .plain
  · split
    · split
      · exact .constant 1
      · exact .plain
    · exact .plain

/-- Powers and products of tidy expressions are tidy, each because those of lower rank are. -/
theorem isTidy_mkPow_mkProduct :
    (∀ b : Expr α, IsTidy b → ∀ x, IsTidy x → IsTidy (mkPow b x)) ∧
      ∀ es : List (Expr α), (∀ e ∈ es, IsTidy e) → IsTidy (mkProduct es) := by
  apply rank_induction
  · intro b power product hb x hx
    have raised := raised_mkPow b x
    generalize kept : mkPow b x = r at raised
    cases raised with
    | plain => exact isTidy_power.mpr ⟨kept, hb, hx⟩
    | constant v => exact isTidy_num v
    | base => exact hb
    | @power i y n base exponent =>
      subst base
      obtain ⟨-, hi, hy⟩ := isTidy_power.mp hb
      refine power i (baseRank_lt_power i y) hi _ ?_
      exact product _ (factorRankList_lt_power i y n) (by simp [hy])
    | @product fs n base exponent =>
      subst base
      refine product _ (factorRankList_map_mkPow_lt fs (Expr.num n)) fun e he => ?_
      obtain ⟨f, hf, rfl⟩ := List.mem_map.mp he
      exact power f (baseRank_lt_product hf) (hb.child hf) _ (isTidy_num n)
  · intro es pow hes
    have factors : ∀ f ∈ factorsList es, IsTidy f := by
      rw [factorsList_eq_flatMap, List.forall_mem_flatMap]
      exact fun e he => (hes e he).factors
    have powers : ∀ f ∈ collectedPowers es, IsTidy f ∧ ∀ gs, f ≠ .product gs := by
      unfold collectedPowers
      rw [List.forall_mem_flatMap]
      intro g hg
      obtain ⟨base, exponents⟩ := forall_mem_collectFactors (P := IsTidy) (Q := IsTidy)
        (fun f hf _ => (factors f hf).basePower) g hg
      exact (pow g.1 (baseRank_of_mem_collectFactorsList hg) base _ (isTidy_mkSum exponents)).topFactors
    rw [mkProduct_eq_assemble]
    dsimp only
    split
    · exact isTidy_zero
    · refine isTidy_assemble (fun f hf => (powers f (List.mem_filter.mp hf).1).1) fun f hf => ?_
      obtain ⟨mem, variable'⟩ := List.mem_filter.mp hf
      exact ⟨Option.isNone_iff_eq_none.mp variable', (powers f mem).2⟩

theorem isTidy_mkPow {b x : Expr α} (hb : IsTidy b) (hx : IsTidy x) : IsTidy (mkPow b x) :=
  isTidy_mkPow_mkProduct.1 b hb x hx

theorem isTidy_mkProduct (h : ∀ e ∈ es, IsTidy e) : IsTidy (mkProduct es) := isTidy_mkPow_mkProduct.2 es h

theorem isTidy_neg {a : Expr α} (ha : IsTidy a) : IsTidy (-a) :=
  isTidy_mkProduct (List.forall_mem_cons.mpr ⟨isTidy_mkNum _, List.forall_mem_singleton.mpr ha⟩)

/-! ## Functions and conditions -/

theorem isTidy_mkCall {f : Builtin} (h : ∀ e ∈ es, IsTidy e) : IsTidy (mkCall f es) := by
  by_cases kept : mkCall f es = call f es
  · rw [kept]
    exact isTidy_iff.mpr ⟨by simpa [TidyNode, mapChildren] using kept, h⟩
  unfold mkCall at kept ⊢
  split
  · exact isTidy_mkPow (h _ (by simp)) (h _ (by simp))
  split
  · exact isTidy_mkNum _
  · next folded => exact absurd (by simp [folded]) kept

omit [Std.TransCmp (Scalar.order (α := α))] [Std.LawfulEqCmp (Scalar.order (α := α))]

theorem isTidy_apply {name : String} (h : ∀ e ∈ es, IsTidy e) : IsTidy (apply name es) :=
  isTidy_iff.mpr ⟨by simp [TidyNode, mapChildren], h⟩

variable {a b : Expr α}

theorem isTidy_mkCompare {o : Comparison} (ha : IsTidy a) (hb : IsTidy b) : IsTidy (mkCompare o a b) := by
  by_cases constant : ∃ x y, a = num x ∧ b = num y
  · obtain ⟨x, y, rfl, rfl⟩ := constant
    exact isTidy_mkNum _
  · have kept : mkCompare o a b = compare o a b := by
      unfold mkCompare
      split
      · exact absurd ⟨_, _, rfl, rfl⟩ constant
      · rfl
    rw [kept]
    exact isTidy_iff.mpr ⟨kept, by simp [children, ha, hb]⟩

theorem isTidy_mkSelect {x : Expr α} (hx : IsTidy x) (ha : IsTidy a) (hb : IsTidy b) :
    IsTidy (mkSelect x a b) := by
  by_cases kept : mkSelect x a b = select x a b
  · rw [kept]
    exact isTidy_iff.mpr ⟨kept, by simp [children, hx, ha, hb]⟩
  unfold mkSelect at kept ⊢
  split
  · split
    · exact hb
    · exact ha
  · split
    · exact ha
    · next different => exact absurd (by simp [different]) kept

theorem isTidy_mkDerivative {t : Symbol} (ha : IsTidy a) : IsTidy (mkDerivative a t) := by
  cases a with
  | num v => exact isTidy_zero
  | _ => exact isTidy_iff.mpr ⟨rfl, List.forall_mem_singleton.mpr ha⟩

theorem isTidy_mkIntegral {t : Symbol} (ha : IsTidy a) : IsTidy (mkIntegral a t) :=
  isTidy_iff.mpr ⟨rfl, List.forall_mem_singleton.mpr ha⟩

/-! ## Canonical expressions -/

theorem isCanonical_iff : IsCanonical e ↔ mapChildren id e = e ∧ ∀ x ∈ e.children, IsCanonical x :=
  everywhere_iff

variable [Std.TransCmp (Scalar.order (α := α))] [Std.LawfulEqCmp (Scalar.order (α := α))]

/-- A node that its constructor makes of tidy parts is tidy. -/
theorem isTidy_of_rebuilt (rebuilt : mapChildren id e = e) (parts : ∀ x ∈ e.children, IsTidy x) :
    IsTidy e := by
  cases e with
  | sum ts =>
    rw [← rebuilt, mapChildren, List.map_id]
    exact isTidy_mkSum parts
  | product fs =>
    rw [← rebuilt, mapChildren, List.map_id]
    exact isTidy_mkProduct parts
  | _ => exact isTidy_iff.mpr ⟨rebuilt, parts⟩

theorem IsCanonical.isTidy (h : IsCanonical e) : IsTidy e := by
  induction e using children_ind with
  | step e ih =>
    obtain ⟨rebuilt, parts⟩ := isCanonical_iff.mp h
    exact isTidy_of_rebuilt rebuilt fun x hx => ih x hx (parts x hx)

end AnalogCircuit.Expr
