import AnalogCircuit.Proofs.Row
/-!
# Linear expressions

An expression is linear in unknowns by its shape when every product in it has at most one factor that mentions an
unknown, and unknowns occur in sums and products only. The canonical constructors keep that, because a factor with
an unknown is collected alone: its exponent stays one. So do replacing an unknown and solving for one, and the
partial derivatives mention no unknown.
-/

namespace AnalogCircuit.Expr

variable {α : Type}

/-! ## Known and linear expressions -/

/-- The expression mentions no unknown, and can be computed. -/
structure IsKnown [Scalar α] (unknown : Symbol → Bool) (e : Expr α) : Prop where
  free : e.dependsOn unknown = false
  computable : isComputable false e = true

/-- Sums and products of symbols and known expressions with at most one factor that is not known, and derivatives
and integrals of such expressions over the time if they are allowed. -/
inductive IsLinear [Scalar α] (unknown : Symbol → Bool) (inTime : Bool) : Expr α → Prop
  | known {e : Expr α} (h : IsKnown unknown e) : IsLinear unknown inTime e
  | sym (s : Symbol) : IsLinear unknown inTime (sym s)
  | sum {ts : List (Expr α)} (h : ∀ t ∈ ts, IsLinear unknown inTime t) : IsLinear unknown inTime (sum ts)
  | product {fs : List (Expr α)} (h : ∀ f ∈ fs, IsLinear unknown inTime f)
      (one : fs.Pairwise fun f g => IsKnown unknown f ∨ IsKnown unknown g) :
      IsLinear unknown inTime (product fs)
  | derivative {x : Expr α} (allowed : inTime = true) (h : IsLinear unknown inTime x) :
      IsLinear unknown inTime (derivative x .time)
  | integral {x : Expr α} (allowed : inTime = true) (h : IsLinear unknown inTime x) :
      IsLinear unknown inTime (integral x .time)

/-- Linear factors of which at most one is not known. -/
structure LinearFactors [Scalar α] (unknown : Symbol → Bool) (inTime : Bool) (fs : List (Expr α)) :
    Prop where
  linear : ∀ f ∈ fs, IsLinear unknown inTime f
  one : fs.Pairwise fun f g => IsKnown unknown f ∨ IsKnown unknown g

variable [ExactScalar α] {U : Symbol → Bool} {inTime : Bool}

theorem hereditary_isKnown (U : Symbol → Bool) : Hereditary True fun e : Expr α => IsKnown U e := by
  have free := hereditary_dependsOn (α := α) U
  have computable := hereditary_isComputable (α := α) false
  refine ⟨fun v => ⟨free.num v, computable.num v⟩, fun ts => ?_, fun fs => ?_, fun b e => ?_⟩
  · constructor
    · intro h t ht
      exact ⟨(free.sum ts).mp h.free t ht, (computable.sum ts).mp h.computable t ht⟩
    · intro h
      exact ⟨(free.sum ts).mpr fun t ht => (h t ht).free,
        (computable.sum ts).mpr fun t ht => (h t ht).computable⟩
  · constructor
    · intro h f hf
      exact ⟨(free.product fs).mp h.free f hf, (computable.product fs).mp h.computable f hf⟩
    · intro h
      exact ⟨(free.product fs).mpr fun f hf => (h f hf).free,
        (computable.product fs).mpr fun f hf => (h f hf).computable⟩
  · constructor
    · intro h
      obtain ⟨fb, fe, -⟩ := (free.power b e).mp h.free
      obtain ⟨cb, ce, integral⟩ := (computable.power b e).mp h.computable
      exact ⟨⟨fb, cb⟩, ⟨fe, ce⟩, integral⟩
    · rintro ⟨hb, he, integral⟩
      exact ⟨(free.power b e).mpr ⟨hb.free, he.free, False.elim⟩,
        (computable.power b e).mpr ⟨hb.computable, he.computable, integral⟩⟩

theorem isLinear_sum {ts : List (Expr α)} :
    IsLinear U inTime (sum ts) ↔ ∀ t ∈ ts, IsLinear U inTime t := by
  constructor
  · rintro (h | _ | h)
    · exact fun t ht => .known ((hereditary_isKnown U).sum ts |>.mp h t ht)
    · exact h
  · exact .sum

theorem LinearFactors.of_known {fs : List (Expr α)} (h : ∀ f ∈ fs, IsKnown U f) :
    LinearFactors U inTime fs :=
  ⟨fun f hf => .known (h f hf), List.pairwise_of_forall_mem_list fun f hf _ _ => .inl (h f hf)⟩

theorem isLinear_product {fs : List (Expr α)} :
    IsLinear U inTime (product fs) ↔ LinearFactors U inTime fs := by
  constructor
  · rintro (h | _ | _ | ⟨h, one⟩)
    · exact .of_known ((hereditary_isKnown U).product fs |>.mp h)
    · exact ⟨h, one⟩
  · exact fun h => .product h.linear h.one

theorem LinearFactors.sublist {fs gs : List (Expr α)} (h : LinearFactors U inTime fs)
    (sub : gs.Sublist fs) : LinearFactors U inTime gs :=
  ⟨fun g hg => h.linear g (sub.subset hg), h.one.sublist sub⟩

theorem LinearFactors.perm {fs gs : List (Expr α)} (h : LinearFactors U inTime fs)
    (perm : gs.Perm fs) : LinearFactors U inTime gs :=
  ⟨fun g hg => h.linear g (perm.mem_iff.mp hg), perm.symm.pairwise h.one fun h => h.symm⟩

theorem LinearFactors.cons {f : Expr α} {fs : List (Expr α)} (hf : IsKnown U f)
    (h : LinearFactors U inTime fs) : LinearFactors U inTime (f :: fs) :=
  ⟨List.forall_mem_cons.mpr ⟨.known hf, h.linear⟩, List.pairwise_cons.mpr ⟨fun _ _ => .inl hf, h.one⟩⟩

theorem LinearFactors.singleton {f : Expr α} (h : IsLinear U inTime f) : LinearFactors U inTime [f] :=
  ⟨List.forall_mem_singleton.mpr h, List.pairwise_singleton ..⟩

/-- A linear expression is known if it is neither a symbol nor a sum, a product or an operator of time. -/
theorem IsLinear.isKnown_power {b e : Expr α} (h : IsLinear U inTime (power b e)) :
    IsKnown U (power b e) := by
  cases h with
  | known h => exact h

theorem isKnown_of_not_mem {s : Symbol} (h : U s = false) : IsKnown U (sym s : Expr α) :=
  ⟨h, by simp only [isComputable]⟩

/-! ## Sums -/

theorem isLinear_num (v : α) : IsLinear U inTime (num v) := .known ((hereditary_isKnown U).num v)

theorem isLinear_ofFactors {fs : List (Expr α)} (h : LinearFactors U inTime fs) :
    IsLinear U inTime (ofFactors fs) := by
  unfold ofFactors
  split
  · exact h.linear _ List.mem_cons_self
  · exact isLinear_product.mpr h

theorem isLinear_splitCoefficient {e : Expr α} (h : IsLinear U inTime e) :
    IsLinear U inTime e.splitCoefficient.2 := by
  unfold splitCoefficient
  split
  · exact isLinear_ofFactors ((isLinear_product.mp h).sublist (List.sublist_cons_self ..))
  · exact isLinear_num 1
  · exact h

theorem isLinear_scale (c : α) {e : Expr α} (h : IsLinear U inTime e) : IsLinear U inTime (scale c e) := by
  have coefficient : IsKnown U (num c) := (hereditary_isKnown U).num c
  unfold scale
  split
  · exact h
  split
  · rw [mkNum_eq]; exact isLinear_num _
  · rw [mkNum_eq]
    exact isLinear_product.mpr (.cons coefficient (isLinear_product.mp h))
  · rw [mkNum_eq]
    exact isLinear_product.mpr (.cons coefficient (.singleton h))

theorem termwise_isLinear (U : Symbol → Bool) (inTime : Bool) :
    Termwise fun e : Expr α => IsLinear U inTime e where
  num := isLinear_num
  sum _ := isLinear_sum
  rescale h c := isLinear_scale c (isLinear_splitCoefficient h)

theorem isLinear_mkSum {es : List (Expr α)} (h : ∀ e ∈ es, IsLinear U inTime e) :
    IsLinear U inTime (mkSum es) := (termwise_isLinear U inTime).mkSum h

/-! ## Products -/

/-- A base with its exponents: both are known, or the base is linear and occurs once. -/
def LinearPower (unknown : Symbol → Bool) (inTime : Bool) (g : Expr α × List (Expr α)) : Prop :=
  IsKnown unknown g.1 ∧ (∀ e ∈ g.2, IsKnown unknown e ∧ IsIntegral e) ∨
    IsLinear unknown inTime g.1 ∧ g.2 = [one]

theorem linearFactors_factors {e : Expr α} (h : IsLinear U inTime e) :
    LinearFactors U inTime e.factors := by
  induction e with
  | product fs ih =>
    obtain ⟨linear, one⟩ := isLinear_product.mp h
    rw [factors, factorsList_eq_flatMap]
    constructor
    · intro f hf
      obtain ⟨e, he, hf⟩ := List.mem_flatMap.mp hf
      exact (ih e he (linear e he)).linear f hf
    · rw [List.pairwise_flatMap]
      refine ⟨fun e he => (ih e he (linear e he)).one, one.imp fun known => ?_⟩
      intro f hf g hg
      exact known.imp (fun h => (hereditary_isKnown U).factors h f hf)
        fun h => (hereditary_isKnown U).factors h g hg
  | _ => exact .singleton h

theorem linearFactors_factorsList {es : List (Expr α)} (h : LinearFactors U inTime es) :
    LinearFactors U inTime (factorsList es) :=
  linearFactors_factors (isLinear_product.mpr h)

/-- The top factors of a linear expression are linear. -/
theorem linearFactors_topFactors {e : Expr α} (h : IsLinear U inTime e) :
    LinearFactors U inTime e.topFactors := by
  cases e with
  | product fs => exact isLinear_product.mp h
  | _ => exact .singleton h

/-- The base of a known factor is known, and its exponent is a known integer. Any other linear factor is its own base,
and occurs once. -/
theorem linearPower_basePower {f : Expr α} (h : IsLinear U inTime f) :
    IsKnown U f.basePower.1 ∧ IsKnown U f.basePower.2 ∧ IsIntegral f.basePower.2 ∨
      ¬IsKnown U f ∧ f.basePower = (f, one) := by
  by_cases known : IsKnown U f
  · obtain ⟨base, exponent, integral⟩ := (hereditary_isKnown U).basePower known
    exact .inl ⟨base, exponent, integral trivial⟩
  · refine .inr ⟨known, ?_⟩
    cases f with
    | power b e => exact absurd h.isKnown_power known
    | _ => rfl

/-- Collecting one more factor keeps the powers linear, and of two bases or factors one known. -/
theorem linearPower_collectFactor {f : Expr α} {fs : List (Expr α)} {acc : List (Expr α × List (Expr α))}
    (hf : IsLinear U inTime f) (hacc : ∀ g ∈ acc, LinearPower U inTime g)
    (pairs : (acc.map (·.1) ++ f :: fs).Pairwise fun f g => IsKnown U f ∨ IsKnown U g) :
    (∀ g ∈ collectFactor acc f, LinearPower U inTime g) ∧
      ((collectFactor acc f).map (·.1) ++ fs).Pairwise fun f g => IsKnown U f ∨ IsKnown U g := by
  have symm {f g : Expr α} (h : IsKnown U f ∨ IsKnown U g) : IsKnown U g ∨ IsKnown U f := h.symm
  obtain ⟨apart, rest⟩ := List.pairwise_cons.mp ((List.pairwise_middle symm).mp pairs)
  rcases adjust_eq [] f.basePower.1 (· ++ [f.basePower.2]) acc with
    ⟨l₁, es, l₂, old, new⟩ | ⟨l₁, l₂, old, new⟩
  -- the base has been collected before: then it is known, and so is the factor
  · have found : IsKnown U f.basePower.1 ∧ IsKnown U f.basePower.2 ∧ IsIntegral f.basePower.2 := by
      refine (linearPower_basePower hf).resolve_right ?_
      rintro ⟨unknown, same⟩
      refine unknown ((apart f ?_).elim id id)
      rw [old, same]
      simp
    refine ⟨fun g hg => ?_, ?_⟩
    · rw [collectFactor, new] at hg
      rw [old] at hacc
      rcases List.mem_append.mp hg with hg | hg
      · exact hacc g (List.mem_append_left _ hg)
      rcases List.mem_cons.mp hg with rfl | hg
      · refine .inl ⟨found.1, List.forall_mem_append.mpr ⟨?_, List.forall_mem_singleton.mpr found.2⟩⟩
        rcases hacc _ (List.mem_append_right _ List.mem_cons_self) with ⟨-, known⟩ | ⟨-, lone⟩
        · exact known
        · rw [show es = [Expr.one] from lone, List.forall_mem_singleton]
          exact ⟨(hereditary_isKnown U).num 1, 1, rfl, Scalar.isIntegral_one⟩
      · exact hacc g (by simp [hg])
    · have bases : (collectFactor acc f).map (·.1) = acc.map (·.1) := by
        rw [collectFactor, new, old, List.map_append, List.map_append]
        rfl
      rw [bases]
      exact rest
  · refine ⟨fun g hg => ?_, ?_⟩
    · rw [collectFactor, new] at hg
      rw [old] at hacc
      rcases List.mem_append.mp hg with hg | hg
      · exact hacc g (List.mem_append_left _ hg)
      rcases List.mem_cons.mp hg with rfl | hg
      · rcases linearPower_basePower hf with ⟨base, exponent⟩ | ⟨-, same⟩
        · exact .inl ⟨base, List.forall_mem_singleton.mpr exponent⟩
        · rw [same]
          exact .inr ⟨hf, rfl⟩
      · exact hacc g (List.mem_append_right _ hg)
    · rw [collectFactor, new, List.map_append, List.map_cons, List.append_assoc, List.cons_append,
        List.pairwise_middle symm, List.pairwise_cons]
      rw [old, List.map_append, List.append_assoc] at apart rest
      refine ⟨fun g hg => ?_, rest⟩
      rcases linearPower_basePower hf with ⟨base, -⟩ | ⟨-, same⟩
      · exact .inl base
      · rw [same]
        exact apart g hg

/-- Collecting linear factors of which at most one is not known gives linear powers of which at most one has a base
that is not known. -/
theorem linearPower_foldl {fs : List (Expr α)} {acc : List (Expr α × List (Expr α))}
    (hfs : ∀ f ∈ fs, IsLinear U inTime f) (hacc : ∀ g ∈ acc, LinearPower U inTime g)
    (pairs : (acc.map (·.1) ++ fs).Pairwise fun f g => IsKnown U f ∨ IsKnown U g) :
    (∀ g ∈ fs.foldl collectFactor acc, LinearPower U inTime g) ∧
      ((fs.foldl collectFactor acc).map (·.1)).Pairwise fun f g => IsKnown U f ∨ IsKnown U g := by
  induction fs generalizing acc with
  | nil => exact ⟨hacc, by rwa [List.append_nil] at pairs⟩
  | cons f fs ih =>
    obtain ⟨hf, hfs⟩ := List.forall_mem_cons.mp hfs
    obtain ⟨powers, apart⟩ := linearPower_collectFactor hf hacc pairs
    exact ih hfs powers apart

theorem mkPow_one (b : Expr α) : mkPow b one = b := by
  unfold one
  cases b with
  | num v =>
    rw [mkPow_num_num, mkNum_eq, Scalar.pow_eq_zpow Scalar.isIntegral_one, Scalar.toInt_one, zpow_one]
  | _ => rw [mkPow_integral rfl Scalar.isIntegral_one, if_neg (by simp), if_pos (by simp)]

/-- The power of a linear base is linear, and known where the base is. -/
theorem LinearPower.mkPow {g : Expr α × List (Expr α)} (h : LinearPower U inTime g) :
    IsLinear U inTime (mkPow g.1 (mkSum g.2)) ∧
      (IsKnown U g.1 → IsKnown U (Expr.mkPow g.1 (mkSum g.2))) := by
  have known := hereditary_isKnown (α := α) U
  rcases h with ⟨hb, he⟩ | ⟨hb, he⟩
  · have power : IsKnown U (Expr.mkPow g.1 (mkSum g.2)) :=
      known.mkPow hb (known.exponent_mkSum fun e h => ⟨(he e h).1, fun _ => (he e h).2⟩)
    exact ⟨.known power, fun _ => power⟩
  · have sum : mkSum [one] = (one : Expr α) := by
      have := mkSum_nums [(1 : α)]
      rwa [List.sum_singleton] at this
    rw [he, sum, mkPow_one]
    exact ⟨hb, id⟩

/-- The powers that are collected from linear factors are linear factors. -/
theorem linearFactors_collectedPowers {es : List (Expr α)} (h : LinearFactors U inTime es) :
    LinearFactors U inTime (collectedPowers es) := by
  have factors : LinearFactors U inTime ((factorsList es).filter (·.constant?.isNone)) :=
    (linearFactors_factorsList h).sublist List.filter_sublist
  obtain ⟨powers, pairs⟩ : _ ∧ (List.map (·.1) (List.foldl collectFactor [] _)).Pairwise _ :=
    linearPower_foldl factors.linear (fun _ h => absurd h List.not_mem_nil) factors.one
  rw [← collectFactors_eq] at powers pairs
  unfold collectedPowers
  constructor
  · intro f hf
    obtain ⟨g, hg, hf⟩ := List.mem_flatMap.mp hf
    exact (linearFactors_topFactors (powers g hg).mkPow.1).linear f hf
  · rw [List.pairwise_flatMap]
    refine ⟨fun g hg => (linearFactors_topFactors (powers g hg).mkPow.1).one, ?_⟩
    refine (List.pairwise_map.mp pairs).imp_of_mem fun {g g'} hg hg' apart x hx y hy => ?_
    have top := hereditary_isKnown (α := α) U
    rcases apart with base | base
    · exact .inl (top.topFactors ((powers g hg).mkPow.2 base) x hx)
    · exact .inr (top.topFactors ((powers g' hg').mkPow.2 base) y hy)

/-- The canonical product of linear factors is linear if at most one of them is not known. -/
theorem isLinear_mkProduct {es : List (Expr α)} (h : LinearFactors U inTime es) :
    IsLinear U inTime (mkProduct es) := by
  have powers : LinearFactors U inTime ((collectedPowers es).filter (·.constant?.isNone)) :=
    (linearFactors_collectedPowers h).sublist List.filter_sublist
  rw [mkProduct_eq_assemble]
  dsimp only
  split
  · exact isLinear_num 0
  rw [assemble_eq]
  split
  · exact isLinear_num 0
  generalize List.foldl _ _ _ = c
  have sorted : LinearFactors U inTime
      (sort ((collectedPowers es).filter fun f => f.constant?.isNone)) :=
    powers.perm (sortBy_perm _ _)
  have all : LinearFactors U inTime
      (if Scalar.isOne c then sort ((collectedPowers es).filter fun f => f.constant?.isNone)
        else mkNum c :: sort ((collectedPowers es).filter fun f => f.constant?.isNone)) := by
    split
    · exact sorted
    · rw [mkNum_eq]
      exact .cons ((hereditary_isKnown U).num c) sorted
  unfold joinFactors
  split
  · exact isLinear_num 1
  · next e he => rw [he] at all; exact all.linear e List.mem_cons_self
  · exact isLinear_product.mpr all

/-! ## Operators -/

section

variable {a b : Expr α}

theorem isLinear_mul (ha : IsKnown U a) (hb : IsLinear U inTime b) : IsLinear U inTime (a * b) :=
  isLinear_mkProduct (.cons ha (.singleton hb))

theorem isLinear_mul_known (ha : IsLinear U inTime a) (hb : IsKnown U b) :
    IsLinear U inTime (a * b) :=
  isLinear_mkProduct ((LinearFactors.cons hb (.singleton ha)).perm (.swap ..))

theorem isLinear_neg (ha : IsLinear U inTime a) : IsLinear U inTime (-a) := by
  show IsLinear U inTime (mkNum (-1) * a)
  rw [mkNum_eq]
  exact isLinear_mul ((hereditary_isKnown U).num _) ha

theorem isLinear_add (ha : IsLinear U inTime a) (hb : IsLinear U inTime b) :
    IsLinear U inTime (a + b) := by
  show IsLinear U inTime (mkSum [a, b])
  exact isLinear_mkSum (List.forall_mem_cons.mpr ⟨ha, List.forall_mem_singleton.mpr hb⟩)

theorem isLinear_sub (ha : IsLinear U inTime a) (hb : IsLinear U inTime b) :
    IsLinear U inTime (a - b) := isLinear_add ha (isLinear_neg hb)

theorem isLinear_div (ha : IsLinear U inTime a) (hb : IsKnown U b) : IsLinear U inTime (a / b) := by
  have known := hereditary_isKnown (α := α) U
  have inverse : IsKnown U (mkPow b (mkNum (-1))) := by
    rw [mkNum_eq]
    exact known.mkPow hb ⟨known.num _, fun _ => ⟨-1, rfl, Scalar.isIntegral_neg Scalar.isIntegral_one⟩⟩
  exact isLinear_mul_known ha inverse

end

/-! ## Rewriting -/

section

variable {V : Symbol → Bool} {f : Expr α → Option (Expr α)} {e : Expr α}

/-- What is known stays known if the images of known symbols are known. -/
theorem IsKnown.rewrite (leafwise : Leafwise f)
    (symbols : ∀ s, U s = false → IsKnown V ((f (.sym s)).getD (.sym s))) (h : IsKnown U e) :
    IsKnown V (e.rewrite f) := by
  have known := hereditary_isKnown (α := α) V
  refine rewrite_hereditary known (hereditary_isKnown U) id leafwise (fun e atom h ih => ?_) h
  obtain ⟨free, computable⟩ := h
  cases e with
  | num _ | sum _ | product _ | power _ _ => exact atom.elim
  | sym s => rw [rewrite_eq]; exact symbols s free
  | call g args =>
    obtain ⟨hg, hargs⟩ := isComputable_call.mp computable
    have free := dependsOnList_eq_false_iff.mp free
    have args : ∀ a ∈ args.map (Expr.rewrite f), IsKnown V a :=
      List.forall_mem_map.mpr fun a ha => ih a ha ⟨free a ha, hargs a ha⟩
    rw [rewrite_eq, leafwise.call]
    refine known.mkCall hg ⟨dependsOnList_eq_false_iff.mpr fun a ha => (args a ha).free, ?_⟩
    exact isComputable_call.mpr ⟨hg, fun a ha => (args a ha).computable⟩
  | compare c a b =>
    obtain ⟨fa, fb⟩ := Bool.or_eq_false_iff.mp free
    obtain ⟨ca, cb⟩ := isComputable_compare.mp computable
    have ha := ih a (by simp [children]) ⟨fa, ca⟩
    have hb := ih b (by simp [children]) ⟨fb, cb⟩
    rw [rewrite_eq, leafwise.compare]
    exact known.mkCompare ⟨Bool.or_eq_false_iff.mpr ⟨ha.free, hb.free⟩,
      isComputable_compare.mpr ⟨ha.computable, hb.computable⟩⟩
  | select c a b =>
    obtain ⟨fc, free⟩ := Bool.or_eq_false_iff.mp free
    obtain ⟨fa, fb⟩ := Bool.or_eq_false_iff.mp free
    obtain ⟨cc, ca, cb⟩ := isComputable_select.mp computable
    have hc := ih c (by simp [children]) ⟨fc, cc⟩
    have ha := ih a (by simp [children]) ⟨fa, ca⟩
    have hb := ih b (by simp [children]) ⟨fb, cb⟩
    rw [rewrite_eq, leafwise.select]
    refine Hereditary.mkSelect (H := fun e => IsKnown V e) ⟨?_, ?_⟩ ha hb
    · exact Bool.or_eq_false_iff.mpr ⟨hc.free, Bool.or_eq_false_iff.mpr ⟨ha.free, hb.free⟩⟩
    · exact isComputable_select.mpr ⟨hc.computable, ha.computable, hb.computable⟩
  | apply _ _ => simp [isComputable] at computable
  | derivative _ _ | integral _ _ => simp [isComputable] at computable

/-- What is linear stays linear if the images of symbols and the answers to operators of time are linear, and the
images of known symbols known. -/
theorem IsLinear.rewrite (leafwise : Leafwise f)
    (images : ∀ s, IsLinear V false ((f (.sym s)).getD (.sym s)))
    (known : ∀ s, U s = false → IsKnown V ((f (.sym s)).getD (.sym s)))
    (operators : inTime = true → ∀ x, (∃ r, f (.derivative x .time) = some r ∧ IsLinear V false r) ∧
      ∃ r, f (.integral x .time) = some r ∧ IsLinear V false r)
    (h : IsLinear U inTime e) : IsLinear V false (e.rewrite f) := by
  induction h with
  | known h => exact .known (h.rewrite leafwise known)
  | sym s => rw [rewrite_eq]; exact images s
  | sum h ih =>
    rw [rewrite_eq, leafwise.sum]
    exact isLinear_mkSum (List.forall_mem_map.mpr ih)
  | product h one ih =>
    rw [rewrite_eq, leafwise.product]
    refine isLinear_mkProduct ⟨List.forall_mem_map.mpr ih, List.pairwise_map.mpr ?_⟩
    exact one.imp (Or.imp (·.rewrite leafwise known) (·.rewrite leafwise known))
  | derivative allowed h ih =>
    obtain ⟨⟨r, answer, hr⟩, -⟩ := operators allowed _
    rw [rewrite_eq, answer]
    exact hr
  | integral allowed h ih =>
    obtain ⟨-, r, answer, hr⟩ := operators allowed _
    rw [rewrite_eq, answer]
    exact hr

theorem IsLinear.onSymbols {g : Symbol → Option (Expr α)} (images : ∀ s, IsLinear V false (image g s))
    (known : ∀ s, U s = false → IsKnown V (image g s)) (h : IsLinear U false e) :
    IsLinear V false (e.rewrite (Expr.onSymbols g)) :=
  h.rewrite (leafwise_onSymbols g) images known fun h : false = true => nomatch h

/-- Replacing an unknown by a linear expression in a linear one leads to a linear one. -/
theorem IsLinear.replace {u : Symbol} {r : Expr α} (h : IsLinear U false r) (hu : U u = true)
    (he : IsLinear U false e) : IsLinear U false (r.replace u e) := by
  rw [replace_eq]
  refine h.onSymbols (fun s => ?_) (fun s hs => ?_)
  · rw [image_replace]
    split
    · exact he
    · exact .sym s
  · rw [image_replace, if_neg]
    · exact isKnown_of_not_mem hs
    · rintro rfl
      rw [hu] at hs
      cases hs

end

/-! ## What linear expressions are -/

/-- The parts of a known expression are known. -/
theorem IsKnown.of_mem_children {e x : Expr α} (h : IsKnown U e) (hx : x ∈ e.children) :
    IsKnown U x := by
  have known := hereditary_isKnown (α := α) U
  obtain ⟨free, computable⟩ := h
  cases e with
  | num _ | sym _ => exact absurd hx List.not_mem_nil
  | sum ts => exact (known.sum ts).mp ⟨free, computable⟩ x hx
  | product fs => exact (known.product fs).mp ⟨free, computable⟩ x hx
  | power b e =>
    obtain ⟨hb, he, -⟩ := (known.power b e).mp ⟨free, computable⟩
    rcases List.mem_cons.mp hx with rfl | hx
    · exact hb
    · rw [List.mem_singleton.mp hx]; exact he
  | call f args =>
    exact ⟨dependsOnList_eq_false_iff.mp free x hx, (isComputable_call.mp computable).2 x hx⟩
  | compare c a b =>
    obtain ⟨fa, fb⟩ := Bool.or_eq_false_iff.mp free
    obtain ⟨ca, cb⟩ := isComputable_compare.mp computable
    rcases List.mem_cons.mp hx with rfl | hx
    · exact ⟨fa, ca⟩
    · rw [List.mem_singleton.mp hx]; exact ⟨fb, cb⟩
  | select c a b =>
    obtain ⟨fc, free⟩ := Bool.or_eq_false_iff.mp free
    obtain ⟨fa, fb⟩ := Bool.or_eq_false_iff.mp free
    obtain ⟨cc, ca, cb⟩ := isComputable_select.mp computable
    simp only [children, List.mem_cons, List.not_mem_nil, or_false] at hx
    rcases hx with rfl | rfl | rfl
    · exact ⟨fc, cc⟩
    · exact ⟨fa, ca⟩
    · exact ⟨fb, cb⟩
  | apply _ _ => simp [isComputable] at computable
  | derivative _ _ | integral _ _ => simp [isComputable] at computable

theorem IsLinear.of_mem_children {e x : Expr α} (h : IsLinear U inTime e) (hx : x ∈ e.children) :
    IsLinear U inTime x := by
  cases h with
  | known h => exact .known (h.of_mem_children hx)
  | sym s => exact absurd hx List.not_mem_nil
  | sum h => exact h x hx
  | product h _ => exact h x hx
  | derivative _ h | integral _ h => rw [List.mem_singleton.mp hx]; exact h

section

variable {e : Expr α}

theorem IsLinear.isRow (h : IsLinear U false e) : IsRow U e := by
  have rows := hereditary_isRow (α := α) U
  induction h with
  | known h => exact ⟨isRational_of_dependsOn h.free h.computable, h.computable⟩
  | sym s => exact isRow_sym s
  | sum h ih => exact (rows.sum _).mpr ih
  | product h one ih => exact (rows.product _).mpr ih
  | derivative allowed _ _ | integral allowed _ _ => cases allowed

/-- A known expression is polynomial in the unknowns. -/
theorem IsKnown.isPolynomial (h : IsKnown U e) : e.isPolynomial U = true := by
  have known := hereditary_isKnown (α := α) U
  induction e with
  | num _ | sym _ => simp only [Expr.isPolynomial]
  | sum ts ih =>
    rw [Expr.isPolynomial]
    exact isPolynomialList_iff.mpr fun t ht => ih t ht ((known.sum ts).mp h t ht)
  | product fs ih =>
    rw [Expr.isPolynomial]
    exact isPolynomialList_iff.mpr fun f hf => ih f hf ((known.product fs).mp h f hf)
  | power b e _ _ =>
    obtain ⟨base, -, integral⟩ := (known.power b e).mp h
    obtain ⟨n, rfl, -⟩ := integral trivial
    rw [Expr.isPolynomial, base.free, Bool.not_false, Bool.or_true]
  | _ => simp [Expr.isPolynomial, h.free]

theorem IsLinear.isPolynomial (h : IsLinear U false e) : e.isPolynomial U = true := by
  induction h with
  | known h => exact h.isPolynomial
  | sym _ => simp only [Expr.isPolynomial]
  | sum h ih => rw [Expr.isPolynomial]; exact isPolynomialList_iff.mpr ih
  | product h one ih => rw [Expr.isPolynomial]; exact isPolynomialList_iff.mpr ih
  | derivative allowed _ _ | integral allowed _ _ => cases allowed

/-! ## Derivatives -/

/-- The product rule leads from linear factors to something known if at most one factor is not known, known factors
have vanishing derivatives, and all derivatives are known: whatever factor is not known is differentiated away. -/
theorem known_productRule {fs : List (Expr α)} {u : Symbol} {again? : Option (Expr α → Expr α)}
    (one : fs.Pairwise fun f g => IsKnown U f ∨ IsKnown U g)
    (vanishes : ∀ {f : Expr α}, IsKnown U f → diffStep u again? f = zero)
    (slopes : ∀ f ∈ fs, IsKnown U (diffStep u again? f)) :
    IsKnown U (productRule (fs.zip (diffSteps u again? fs))) := by
  have known := hereditary_isKnown (α := α) U
  have pairs : fs.zip (diffSteps u again? fs) = fs.map fun f => (f, diffStep u again? f) := by
    rw [diffSteps_eq_map]
    simpa using List.zip_map' (f := id) (g := diffStep u again?) (l := fs)
  unfold productRule
  rw [pairs]
  dsimp only
  rw [List.mapIdx_eq_zipIdx_map, List.map_map]
  refine known.mkSum (List.forall_mem_map.mpr ?_)
  rintro ⟨⟨f, d⟩, i⟩ hm
  obtain ⟨hi, entry⟩ := List.getElem?_eq_some_iff.mp (List.mk_mem_zipIdx_iff_getElem?.mp hm)
  rw [List.length_map] at hi
  rw [List.getElem_map, Prod.mk.injEq] at entry
  obtain ⟨rfl, rfl⟩ := entry
  have firsts : fs.map (Prod.fst ∘ fun f => (f, diffStep u again? f)) = fs := List.map_id fs
  dsimp only
  rw [firsts]
  split
  · exact known.num 0
  next moves =>
  have unknown : ¬IsKnown U fs[i] := by
    intro h
    rw [vanishes h] at moves
    exact moves (Scalar.isZero_iff.mpr rfl)
  refine known.mkProduct fun g hg => ?_
  obtain ⟨j, hj, rfl⟩ := List.mem_iff_getElem.mp hg
  rw [List.length_set] at hj
  rw [List.getElem_set]
  split
  · exact slopes _ (List.getElem_mem hi)
  · next apart =>
    rcases Nat.lt_or_gt_of_ne apart with lt | gt
    · exact (List.pairwise_iff_getElem.mp one i j hi hj lt).resolve_left unknown
    · exact (List.pairwise_iff_getElem.mp one j i hj hi gt).resolve_right unknown

/-- The partial derivatives of a linear expression mention no unknown. -/
theorem IsLinear.isKnown_diff {u : Symbol} (hu : U u = true) (h : IsLinear U false e) :
    IsKnown U (e.diff u) := by
  have known := hereditary_isKnown (α := α) U
  suffices step : ∀ again? : Option (Expr α → Expr α), IsKnown U (diffStep u again? e) by
    unfold Expr.diff
    cases e.rewritableCalls <;> exact step _
  intro again?
  have vanishes {e : Expr α} (h : IsKnown U e) : diffStep u again? e = zero := by
    rw [diffStep.eq_def, contains_eq_false hu h.free]
    rfl
  have list {es : List (Expr α)} (ih : ∀ e ∈ es, IsKnown U (diffStep u again? e)) :
      ∀ d ∈ diffSteps u again? es, IsKnown U d := by
    rw [diffSteps_eq_map]
    exact List.forall_mem_map.mpr ih
  induction h with
  | known h =>
    rw [vanishes h]
    exact known.num 0
  | sym s =>
    rw [diffStep]
    split
    · exact known.num 0
    · exact known.num 1
  | sum h ih =>
    rw [diffStep]
    split
    · exact known.num 0
    · exact known.mkSum (list ih)
  | product h one ih =>
    rw [diffStep]
    split
    · exact known.num 0
    exact known_productRule one vanishes ih
  | derivative allowed _ _ | integral allowed _ _ => cases allowed

end

end AnalogCircuit.Expr
