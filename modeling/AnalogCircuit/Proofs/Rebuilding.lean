import AnalogCircuit.Proofs.Tidy
/-!
# Rebuilding tidy expressions

Tidy terms none of which is a sum are added up to their sum, and tidy factors with different bases are multiplied to
their product: nothing is flattened, collected or dropped. So an expression is canonical if it is tidy and merged,
that is if no sum in it has a sum among its terms and no product in it has two powers of a common base.

Rebuilding adds zero to a coefficient and multiplies a constant by one. All that is asked of the numbers is that this
does not change the constants of the expression.
-/

namespace AnalogCircuit

/-! ## Zero and one -/

/-- Zero and one do not change the number. -/
structure Scalar.IsNeutral {α : Type} [Scalar α] (v : α) : Prop where
  zero_add : 0 + v = v
  add_zero : v + 0 = v
  one_mul : 1 * v = v

/-- A number system in which zero is zero, and one is one and not zero. -/
class Unital (α : Type) [Scalar α] : Prop where
  isZero_zero : Scalar.isZero (0 : α) = true
  isOne_one : Scalar.isOne (1 : α) = true
  isZero_one : Scalar.isZero (1 : α) = false
  isNeutral_one : Scalar.IsNeutral (1 : α)

theorem Scalar.isNeutral {α : Type} [ExactScalar α] (v : α) : IsNeutral v :=
  ⟨zero_add v, add_zero v, one_mul v⟩

instance {α : Type} [ExactScalar α] : Unital α where
  isZero_zero := Scalar.isZero_iff.mpr rfl
  isOne_one := Scalar.isOne_iff.mpr rfl
  isZero_one := Scalar.isZero_eq_false_iff.mpr one_ne_zero
  isNeutral_one := Scalar.isNeutral 1

namespace Expr

variable {α : Type} [Scalar α]

/-- Zero and one change no constant of the expression. -/
def IsNeutral (e : Expr α) : Prop := ∀ v, num v ∈ e.nodes → Scalar.IsNeutral v

variable {e t : Expr α} {es ts fs gs : List (Expr α)} {c : α}

theorem IsNeutral.child (h : IsNeutral e) {x : Expr α} (hx : x ∈ e.children) : IsNeutral x := by
  intro v hv
  refine h v ?_
  rw [nodes_eq]
  exact List.mem_cons_of_mem _ (List.mem_flatMap.mpr ⟨x, hx, hv⟩)

theorem IsNeutral.num (h : IsNeutral (num c)) : Scalar.IsNeutral c := h c (by simp [nodes])

theorem isNeutral_one [Unital α] : IsNeutral (one : Expr α) := by
  intro v hv
  obtain rfl : v = 1 := by simpa [one, nodes] using hv
  exact Unital.isNeutral_one

/-! ## Terms -/

theorem IsNeutral.splitCoefficient [Unital α] (h : IsNeutral t) : Scalar.IsNeutral t.splitCoefficient.1 := by
  unfold Expr.splitCoefficient
  split
  · exact (h.child List.mem_cons_self).num
  · exact h.num
  · exact Unital.isNeutral_one

/-- A term is put together again from its coefficient and the rest. -/
theorem IsTidy.rejoin [Unital α] (h : IsTidy t) (variable' : t.constant? = none) :
    Scalar.isZero t.splitCoefficient.1 = false ∧
      Expr.scale t.splitCoefficient.1 t.splitCoefficient.2 = t := by
  by_cases scaled : ∃ c fs, t = product (Expr.num c :: fs)
  · obtain ⟨c, fs, rfl⟩ := scaled
    obtain ⟨factors, -⟩ := isTidy_product.mp h
    cases factors with
    | plain _ factor _ => cases (factor (Expr.num c) List.mem_cons_self).nonconstant
    | scaled _ factor some nonzero proper => exact ⟨nonzero, scale_ofFactors factor some nonzero proper⟩
  · have bare : IsBare t := ⟨variable', fun c fs e => scaled ⟨c, fs, e⟩⟩
    rw [bare.splitCoefficient_eq]
    exact ⟨Unital.isZero_one, by simp [Expr.scale, Unital.isOne_one]⟩

/-- Constants differ in their coefficients only, so there is at most one. -/
theorem TidyTerms.constants (h : TidyTerms ts) :
    ts.filterMap constant? = [] ∨ ∃ v, Expr.num v ∈ ts ∧ ts.filterMap constant? = [v] := by
  have mem {v : α} (hv : v ∈ ts.filterMap constant?) : Expr.num v ∈ ts :=
    (perm_constants ts).mem_iff.mpr (List.mem_append_right _ (List.mem_map_of_mem hv))
  have distinct := ((perm_constants ts).map (·.splitCoefficient.2)).nodup_iff.mp h.distinct
  rw [List.map_append, List.map_map] at distinct
  have keys := (List.nodup_append.mp distinct).2.1
  rcases constants : ts.filterMap constant? with _ | ⟨v, _ | ⟨w, vs⟩⟩
  · exact .inl rfl
  · exact .inr ⟨v, mem (by simp [constants]), rfl⟩
  · rw [constants] at keys
    exact absurd List.mem_cons_self (List.nodup_cons.mp keys).1

omit [Scalar α] in
/-- Terms none of which is a sum have no terms but themselves. -/
theorem termsList_of_flat (flat : ∀ t ∈ ts, ∀ us, t ≠ sum us) : termsList ts = ts := by
  have lone : ∀ t ∈ ts, t.terms = [t] := by
    intro t ht
    cases t with
    | sum us => exact absurd rfl (flat _ ht us)
    | _ => rfl
  rw [termsList_eq_flatMap, List.flatMap_congr lone, List.flatMap_singleton']

theorem ofTerms_of_several (several : 2 ≤ ts.length) : ofTerms ts = sum ts := by
  rcases ts with _ | ⟨t, _ | ⟨u, ts⟩⟩
  · cases several
  · cases Nat.lt_irrefl 1 several
  · rfl

variable [Unital α] [Std.TransCmp (Scalar.order (α := α))] [Std.LawfulEqCmp (Scalar.order (α := α))]

/-- Tidy terms are added up as they are. -/
theorem mkSum_of_tidy (h : TidyTerms ts) (tidy : ∀ t ∈ ts, IsTidy t) (neutral : ∀ t ∈ ts, IsNeutral t)
    (flat : ∀ t ∈ ts, ∀ us, t ≠ sum us) : mkSum ts = ofTerms ts := by
  have varying : (((collectTerms ts).filter fun p => !Scalar.isZero p.2).map fun p => Expr.scale p.2 p.1).Perm
      (ts.filter (·.constant?.isNone)) := by
    have rejoined : ∀ t ∈ ts.filter (·.constant?.isNone), Scalar.isZero (t.splitCoefficient.1 + 0) = false ∧
        Expr.scale (t.splitCoefficient.1 + 0) t.splitCoefficient.2 = t := by
      intro t ht
      obtain ⟨mem, variable'⟩ := List.mem_filter.mp ht
      rw [(neutral t mem).splitCoefficient.add_zero]
      exact (tidy t mem).rejoin (Option.isNone_iff_eq_none.mp variable')
    -- Every term has an entry of its own, and none of the entries vanishes.
    have entries := collectTerms_perm ((List.filter_sublist.map _).nodup h.distinct)
    have kept : (collectTerms ts).filter (fun p => !Scalar.isZero p.2) = collectTerms ts := by
      refine List.filter_eq_self.mpr fun p hp => ?_
      obtain ⟨t, ht, rfl⟩ := List.mem_map.mp (entries.mem_iff.mp hp)
      simp [(rejoined t ht).1]
    have back := entries.map fun p => Expr.scale p.2 p.1
    have same := List.map_congr_left (f := fun t : Expr α =>
      Expr.scale (t.splitCoefficient.1 + 0) t.splitCoefficient.2) fun t ht => (rejoined t ht).2
    rw [List.map_id'] at same
    rw [List.map_map] at back
    rw [kept]
    exact same ▸ back
  have constants : (if Scalar.isZero ((ts.filterMap constant?).foldl (· + ·) (0 : α)) then []
      else [mkNum ((ts.filterMap constant?).foldl (· + ·) (0 : α))]) = (ts.filterMap constant?).map Expr.num := by
    rcases h.constants with none | ⟨v, hv, one⟩
    · simp [none, Unital.isZero_zero]
    · have nonzero : Scalar.isZero v = false := h.nonzero _ hv
      simp [one, (neutral _ hv).num.zero_add, nonzero, mkNum_of_nonzero nonzero]
  have perm : (summands ts).Perm ts := by
    simp only [summands, termsList_of_flat flat, constants]
    exact (varying.append_right _).trans (perm_constants ts).symm
  rw [mkSum_eq, h.sorted.sort_eq perm]

/-! ## Factors -/

/-- The factor is made of its base and its exponent again. -/
def IsSteady (f : Expr α) : Prop := mkPow f.basePower.1 (mkSum [f.basePower.2]) = f

omit [Scalar α] in
/-- Factors none of which is a product have no factors but themselves. -/
theorem factorsList_of_unnested (h : ∀ f ∈ fs, ∀ gs, f ≠ product gs) : factorsList fs = fs := by
  have lone : ∀ f ∈ fs, f.factors = [f] := by
    intro f hf
    cases f with
    | product gs => exact absurd rfl (h _ hf gs)
    | _ => rfl
  rw [factorsList_eq_flatMap, List.flatMap_congr lone, List.flatMap_singleton']

omit [Scalar α] in
theorem filter_of_nonconstant (h : ∀ f ∈ fs, f.constant? = none) :
    fs.filter (·.constant?.isNone) = fs ∧ fs.filterMap constant? = [] :=
  ⟨List.filter_eq_self.mpr fun f hf => by simp [h f hf], List.filterMap_eq_nil_iff.mpr h⟩

omit [Unital α] [Std.TransCmp (Scalar.order (α := α))] [Std.LawfulEqCmp (Scalar.order (α := α))] in
theorem joinFactors_of_several (several : 2 ≤ fs.length) : joinFactors fs = product fs := by
  rcases fs with _ | ⟨f, _ | ⟨g, fs⟩⟩
  · cases several
  · cases Nat.lt_irrefl 1 several
  · rfl

omit [Unital α] in
theorem assemble_of_sorted (sorted : Sorted fs) (nonzero : Scalar.isZero c = false) :
    assemble c fs = joinFactors (if Scalar.isOne c then fs else num c :: fs) := by
  rw [assemble_eq, sorted.sort_eq_self, mkNum_of_nonzero nonzero, nonzero]
  rfl

omit [Unital α] in
theorem assemble_perm (perm : fs.Perm gs) : assemble c fs = assemble c gs := by
  rw [assemble_eq, assemble_eq, sort_eq_of_perm perm]

omit [Unital α] [Std.TransCmp (Scalar.order (α := α))] in
/-- Steady factors with different bases are multiplied as they are, in some order. -/
theorem exists_mkProduct_eq {es : List (Expr α)}
    (factor : ∀ f ∈ (factorsList es).filter (·.constant?.isNone), IsFactor f)
    (steady : ∀ f ∈ (factorsList es).filter (·.constant?.isNone), IsSteady f)
    (distinct : (((factorsList es).filter (·.constant?.isNone)).map (·.basePower.1)).Nodup) :
    ∃ gs : List (Expr α), gs.Perm ((factorsList es).filter (·.constant?.isNone)) ∧
      mkProduct es = assemble (((factorsList es).filterMap constant?).foldl (· * ·) 1) gs := by
  have entries := collectFactors_perm distinct
  generalize (factorsList es).filter (·.constant?.isNone) = gs at factor steady entries ⊢
  have powers : (collectedPowers es).Perm gs := by
    have lone : ∀ f ∈ gs, (mkPow f.basePower.1 (mkSum [f.basePower.2])).topFactors = [f] := by
      intro f hf
      rw [steady f hf]
      cases f with
      | product fs => exact absurd rfl ((factor _ hf).unnested fs)
      | _ => rfl
    have back := entries.flatMap_right fun g => (mkPow g.1 (mkSum g.2)).topFactors
    rw [List.flatMap_map, List.flatMap_congr lone, List.flatMap_singleton'] at back
    exact back
  obtain ⟨all, none⟩ := filter_of_nonconstant fun f hf => (factor f (powers.mem_iff.mp hf)).nonconstant
  refine ⟨collectedPowers es, powers, ?_⟩
  rw [mkProduct_eq_assemble, none, all]
  dsimp only [List.foldl_nil]
  by_cases zero : Scalar.isZero (((factorsList es).filterMap constant?).foldl (· * ·) (1 : α))
  · rw [if_pos zero, assemble_eq, if_pos zero]
  · rw [if_neg zero]

omit [Unital α] in
/-- Steady factors with different bases are multiplied as they are. -/
theorem mkProduct_of_steady {es : List (Expr α)}
    (factor : ∀ f ∈ (factorsList es).filter (·.constant?.isNone), IsFactor f)
    (steady : ∀ f ∈ (factorsList es).filter (·.constant?.isNone), IsSteady f)
    (distinct : (((factorsList es).filter (·.constant?.isNone)).map (·.basePower.1)).Nodup) :
    mkProduct es = assemble (((factorsList es).filterMap constant?).foldl (· * ·) 1)
      ((factorsList es).filter (·.constant?.isNone)) := by
  obtain ⟨gs, perm, same⟩ := exists_mkProduct_eq factor steady distinct
  rw [same, assemble_perm perm]

/-- A sum of one tidy expression is that expression, if it is not zero. -/
theorem mkSum_singleton (tidy : IsTidy e) (neutral : IsNeutral e) (nonzero : e.isZero = false)
    (flat : ∀ ts, e = sum ts → ∀ t ∈ ts, ∀ us, t ≠ sum us) : mkSum [e] = e := by
  by_cases nested : ∃ ts, e = sum ts
  · obtain ⟨ts, rfl⟩ := nested
    obtain ⟨⟨several, terms⟩, parts⟩ := isTidy_sum.mp tidy
    have same : mkSum [sum ts] = mkSum ts := by
      rw [mkSum_eq, mkSum_eq]
      simp [summands, termsList, Expr.terms]
    rw [same, mkSum_of_tidy terms parts (fun t ht => neutral.child ht) (flat ts rfl), ofTerms_of_several several]
  · have terms : TidyTerms [e] := ⟨List.pairwise_singleton _ _, by simpa using nonzero, by simp⟩
    exact mkSum_of_tidy terms (by simpa using tidy) (by simpa using neutral)
      (List.forall_mem_singleton.mpr fun us same => nested ⟨us, same⟩)

omit [Std.TransCmp (Scalar.order (α := α))] [Std.LawfulEqCmp (Scalar.order (α := α))] in
/-- The first power of an expression that is not constant. -/
theorem mkPow_unit (variable' : e.constant? = none) : mkPow e one = e := by
  rw [mkPow_eq]
  cases e with
  | num v => cases variable'
  | _ => simp [one, Unital.isZero_one, Unital.isOne_one]

omit [Unital α] [Std.TransCmp (Scalar.order (α := α))] [Std.LawfulEqCmp (Scalar.order (α := α))] in
/-- The exponent of a power that stays one is not zero. -/
theorem isZero_of_mkPow {b x : Expr α} (kept : mkPow b x = power b x) : x.isZero = false := by
  cases x with
  | num v =>
    rw [isZero, Bool.eq_false_iff]
    intro zero
    rw [mkPow_eq] at kept
    cases b <;> simp [zero, one, mkNum] at kept
  | _ => rfl

/-- A tidy factor is made of its base and its exponent again, if the exponent is flat. -/
theorem IsTidy.isSteady {f : Expr α} (h : IsTidy f) (neutral : IsNeutral f) (factor : IsFactor f)
    (flat : ∀ ts, f.basePower.2 = sum ts → ∀ t ∈ ts, ∀ us, t ≠ sum us) : IsSteady f := by
  by_cases raised : ∃ b x, f = power b x
  · obtain ⟨b, x, rfl⟩ := raised
    obtain ⟨kept, -, hx⟩ := isTidy_power.mp h
    show mkPow b (mkSum [x]) = power b x
    rw [mkSum_singleton hx (neutral.child (by simp [children])) (isZero_of_mkPow kept) flat, kept]
  · have base : f.basePower = (f, one) := by
      cases f with
      | power b x => exact absurd ⟨b, x, rfl⟩ raised
      | _ => rfl
    have unit : mkSum [one] = (one : Expr α) :=
      mkSum_singleton isTidy_one isNeutral_one Unital.isZero_one (fun ts same => by cases same)
    rw [IsSteady, base, unit, mkPow_unit factor.nonconstant]

/-! ## Merged expressions -/

/-- The bases of the factors that are not constant. -/
def bases (fs : List (Expr α)) : List (Expr α) := (fs.filter (·.constant?.isNone)).map (·.basePower.1)

/-- No sum is a term of a sum, and no base has two powers in a product. -/
def MergedNode : Expr α → Prop
  | sum ts => ∀ t ∈ ts, ∀ us, t ≠ sum us
  | product fs => (bases fs).Nodup
  | _ => True

/-- All nodes are merged. -/
def IsMerged (e : Expr α) : Prop := Everywhere MergedNode e

omit [Unital α] [Std.TransCmp (Scalar.order (α := α))] [Std.LawfulEqCmp (Scalar.order (α := α))] in
theorem isMerged_iff : IsMerged e ↔ MergedNode e ∧ ∀ x ∈ e.children, IsMerged x := everywhere_iff

omit [Unital α] [Std.TransCmp (Scalar.order (α := α))] [Std.LawfulEqCmp (Scalar.order (α := α))] in
theorem IsMerged.exponent {f : Expr α} (h : IsMerged f) :
    ∀ ts, f.basePower.2 = sum ts → ∀ t ∈ ts, ∀ us, t ≠ sum us := by
  intro ts same
  cases f with
  | power b x =>
    have exponent := (isMerged_iff.mp h).2 x (by simp [children])
    obtain rfl : x = sum ts := same
    exact (isMerged_iff.mp exponent).1
  | _ => cases same

/-- Tidy factors with different bases are multiplied as they are. -/
theorem mkProduct_of_tidy (factors : TidyFactors fs) (tidy : ∀ f ∈ fs, IsTidy f)
    (neutral : ∀ f ∈ fs, IsNeutral f) (merged : IsMerged (product fs)) : mkProduct fs = product fs := by
  obtain ⟨distinct, parts⟩ := isMerged_iff.mp merged
  have factor : ∀ f ∈ fs.filter (·.constant?.isNone), IsFactor f := by
    intro f hf
    obtain ⟨mem, nonconstant⟩ := List.mem_filter.mp hf
    exact ⟨Option.isNone_iff_eq_none.mp nonconstant, factors.unnested f mem⟩
  have steady : ∀ f ∈ fs.filter (·.constant?.isNone), IsSteady f := by
    intro f hf
    have mem := (List.mem_filter.mp hf).1
    exact (tidy f mem).isSteady (neutral f mem) (factor f hf) (parts f mem).exponent
  -- Each base is collected once, so raising it gives back the factor it comes from.
  have rebuilt : mkProduct fs = assemble ((fs.filterMap constant?).foldl (· * ·) 1)
      (fs.filter (·.constant?.isNone)) := by
    have flat := factorsList_of_unnested factors.unnested
    rw [← flat] at factor steady distinct
    have whole := mkProduct_of_steady factor steady distinct
    rwa [flat] at whole
  rw [rebuilt]
  clear rebuilt factor steady
  cases factors with
  | plain sorted factor several =>
    obtain ⟨all, none⟩ := filter_of_nonconstant fun g hg => (factor g hg).nonconstant
    rw [all, none, List.foldl_nil, assemble_of_sorted sorted Unital.isZero_one, if_pos Unital.isOne_one,
      joinFactors_of_several several]
  | @scaled c gs sorted factor some nonzero proper =>
    obtain ⟨all, none⟩ := filter_of_nonconstant fun g hg => (factor g hg).nonconstant
    have several : 2 ≤ (Expr.num c :: gs).length := Nat.succ_le_succ (List.length_pos_of_ne_nil some)
    have one : 1 * c = c := (neutral (Expr.num c) List.mem_cons_self).num.one_mul
    have rest : (Expr.num c :: gs).filter (·.constant?.isNone) = gs := all
    have lead : (Expr.num c :: gs).filterMap constant? = [c] :=
      (List.filterMap_cons_some (f := constant?) rfl).trans (congrArg _ none)
    rw [rest, lead, List.foldl_cons, List.foldl_nil, one, assemble_of_sorted sorted nonzero, proper]
    exact joinFactors_of_several several

/-- Tidy expressions that are merged are canonical. -/
theorem IsTidy.isCanonical (h : IsTidy e) (neutral : IsNeutral e) (merged : IsMerged e) : IsCanonical e := by
  induction e using children_ind with
  | step e ih =>
    obtain ⟨node, parts⟩ := isTidy_iff.mp h
    refine isCanonical_iff.mpr ⟨?_, fun x hx => ih x hx (parts x hx) (neutral.child hx)
      ((isMerged_iff.mp merged).2 x hx)⟩
    cases e with
    | sum ts =>
      rw [mapChildren, List.map_id, mkSum_of_tidy node.2 parts (fun t ht => neutral.child ht)
        (isMerged_iff.mp merged).1, ofTerms_of_several node.1]
    | product fs =>
      rw [mapChildren, List.map_id]
      exact mkProduct_of_tidy node parts (fun f hf => neutral.child hf) merged
    | _ => exact node

end Expr

end AnalogCircuit
