import AnalogCircuit.Proofs.Constructors
import AnalogCircuit.Proofs.Rebuilding
/-!
# Divisors

A quotient is a product with a power, and a power of a product is distributed over its factors. So a quotient by
different bases, canonical or not, is made of a constant and of the inverse of each base, and it is defined only where
no base is zero.
-/

namespace AnalogCircuit.Expr

variable {α : Type} [ExactScalar α]

/-! ## Bases -/

/-- The expression is a base of its own: it is no constant, no product and no power. -/
structure IsBase (b : Expr α) : Prop extends IsFactor b where
  unraised : ∀ x e, b ≠ power x e

omit [ExactScalar α] in
theorem isBase_sym (s : Symbol) : IsBase (sym s : Expr α) := ⟨⟨rfl, by simp⟩, by simp⟩

omit [ExactScalar α] in
theorem isBase_sum (ts : List (Expr α)) : IsBase (sum ts) := ⟨⟨rfl, by simp⟩, by simp⟩

omit [ExactScalar α] in
theorem isBase_call (f : Builtin) (args : List (Expr α)) : IsBase (call f args) := ⟨⟨rfl, by simp⟩, by simp⟩

omit [ExactScalar α] in
theorem isFactor_power (b e : Expr α) : IsFactor (power b e) := ⟨rfl, by simp⟩

theorem mkSum_num (v : α) : mkSum [num v] = num v := by
  rw [← List.map_singleton, mkSum_nums, List.sum_singleton]

variable {b : Expr α}

theorem IsBase.basePower_eq (h : IsBase b) : b.basePower = (b, one) := by
  cases b with
  | power x e => exact absurd rfl (h.unraised x e)
  | _ => rfl

theorem IsBase.isSteady (h : IsBase b) : IsSteady b := by
  unfold IsSteady
  rw [h.basePower_eq]
  show mkPow b (mkSum [num 1]) = b
  rw [mkSum_num]
  exact mkPow_unit h.nonconstant

theorem IsBase.mkPow_eq_power (h : IsBase b) {n : α} (integral : Scalar.isIntegral n = true) (zero : n ≠ 0)
    (one : n ≠ 1) : mkPow b (num n) = power b (num n) := by
  rw [mkPow_integral h.nonconstant integral, if_neg (by simpa using zero), if_neg (by simpa using one)]
  cases b with
  | power x e => exact absurd rfl (h.unraised x e)
  | product fs => exact absurd rfl (h.unnested fs)
  | _ => rfl

/-- The inverse of a base. -/
def inverse (b : Expr α) : Expr α := power b (num (-1))

theorem isIntegral_minus_one : Scalar.isIntegral (-1 : α) = true := Scalar.isIntegral_neg Scalar.isIntegral_one

theorem minus_one_ne_zero : (-1 : α) ≠ 0 := neg_ne_zero.mpr one_ne_zero

theorem minus_one_ne_one : (-1 : α) ≠ 1 := by
  intro same
  have zero : (2 : α) = 0 := by linear_combination -same
  exact two_ne_zero zero

theorem IsBase.mkPow_minus_one (h : IsBase b) : mkPow b (num (-1)) = inverse b :=
  h.mkPow_eq_power isIntegral_minus_one minus_one_ne_zero minus_one_ne_one

theorem IsBase.isSteady_inverse (h : IsBase b) : IsSteady (inverse b) := by
  show mkPow b (mkSum [num (-1)]) = inverse b
  rw [mkSum_num]
  exact h.mkPow_minus_one

theorem regular_of_inverse {ℓ : Symbol → Option α} (h : Regular ℓ (inverse b)) : Regular ℓ b ∧ value ℓ b ≠ 0 := by
  obtain ⟨_, ⟨⟩, regular, -, nonzero⟩ := regular_power.mp h
  rw [Scalar.isZero_eq_false_iff, ← Int.cast_one, ← Int.cast_neg, Scalar.toInt_intCast] at nonzero
  exact ⟨regular, nonzero (by decide)⟩

/-! ## Factors -/

/-- The factors of the expression are constants with the product `c`, and others. -/
structure HasFactors (e : Expr α) (c : α) (fs : List (Expr α)) : Prop where
  constants : (e.factors.filterMap constant?).prod = c
  varying : (e.factors.filter (·.constant?.isNone)).Perm fs

variable {e f : Expr α} {c : α} {fs gs : List (Expr α)}

theorem hasFactors_num (c : α) : HasFactors (num c) c [] := ⟨by simp [factors, constant?], by simp [factors, constant?]⟩

theorem IsFactor.hasFactors (h : IsFactor f) : HasFactors f 1 [f] := by
  have lone : f.factors = [f] := by
    cases f with
    | product fs => exact absurd rfl (h.unnested fs)
    | _ => rfl
  constructor <;> simp [lone, h.nonconstant]

theorem hasFactors_multiple (c : α) (h : IsFactor f) : HasFactors (product [num c, f]) c [f] := by
  obtain ⟨constants, varying⟩ := h.hasFactors
  have flat : (product [num c, f]).factors = num c :: f.factors := by simp [factors, factorsList]
  constructor
  · rw [flat, List.filterMap_cons_some (show constant? (num c) = some c from rfl), List.prod_cons, constants, mul_one]
  · rwa [flat, List.filter_cons_of_neg (by simp [constant?])]

theorem HasFactors.perm (h : HasFactors e c fs) (perm : fs.Perm gs) : HasFactors e c gs :=
  ⟨h.constants, h.varying.trans perm⟩

/-- The factors of a regular expression are regular, whatever expressions stand for. -/
theorem HasFactors.regular_of {M : Interpretation α} (h : HasFactors e c fs) (regular : M.Regular e) {f : Expr α}
    (hf : f ∈ fs) : M.Regular f := by
  have mem := List.mem_filter.mp (h.varying.mem_iff.mpr hf)
  exact (M.factors_denote regular).1 f mem.1

theorem HasFactors.regular (h : HasFactors e c fs) {ℓ : Symbol → Option α} (regular : Regular ℓ e) {f : Expr α}
    (hf : f ∈ fs) : Regular ℓ f := h.regular_of (M := evaluation ℓ) regular hf

theorem hasFactors_joinFactors (h : ∀ f ∈ fs, ∀ gs, f ≠ product gs) :
    HasFactors (joinFactors fs) (fs.filterMap constant?).prod (fs.filter (·.constant?.isNone)) := by
  have flat := factorsList_of_unnested h
  rcases fs with _ | ⟨f, _ | ⟨g, fs⟩⟩
  · exact hasFactors_num 1
  · have lone : f.factors = [f] := by simpa [factorsList] using flat
    exact ⟨by rw [joinFactors, lone], by rw [joinFactors, lone]⟩
  · rw [joinFactors_of_several (Nat.le_add_left 2 _)]
    exact ⟨by rw [factors, flat], by rw [factors, flat]⟩

theorem hasFactors_assemble (nonzero : c ≠ 0) (h : ∀ f ∈ fs, IsFactor f) : HasFactors (assemble c fs) c fs := by
  have perm : (sort fs).Perm fs := sortBy_perm _ fs
  have sorted : ∀ f ∈ sort fs, IsFactor f := fun f hf => h f (perm.mem_iff.mp hf)
  obtain ⟨all, none⟩ := filter_of_nonconstant fun f hf => (sorted f hf).nonconstant
  rw [assemble_eq, if_neg (by simpa using nonzero)]
  by_cases unit : Scalar.isOne c
  · have joined := hasFactors_joinFactors fun f hf => (sorted f hf).unnested
    rw [all, none, List.prod_nil] at joined
    rw [if_pos unit, Scalar.isOne_iff.mp unit]
    exact joined.perm perm
  · have unnested : ∀ f ∈ num c :: sort fs, ∀ gs, f ≠ product gs :=
      List.forall_mem_cons.mpr ⟨by simp, fun f hf => (sorted f hf).unnested⟩
    have joined := hasFactors_joinFactors unnested
    rw [List.filterMap_cons_some (show constant? (num c) = some c from rfl), none,
      List.filter_cons_of_neg (by simp [constant?]), all, List.prod_singleton] at joined
    rw [if_neg unit, mkNum_eq]
    exact joined.perm perm

/-- The parts of a product are steady factors with different bases. -/
structure Separate (fs : List (Expr α)) : Prop where
  factor : ∀ f ∈ fs, IsFactor f
  steady : ∀ f ∈ fs, IsSteady f
  distinct : (fs.map (·.basePower.1)).Nodup

theorem Separate.perm (h : Separate fs) (perm : fs.Perm gs) : Separate gs where
  factor f hf := h.factor f (perm.mem_iff.mpr hf)
  steady f hf := h.steady f (perm.mem_iff.mpr hf)
  distinct := (perm.map _).nodup_iff.mp h.distinct

/-- Separate factors are multiplied as they are, and their constants with each other. -/
theorem exists_mkProduct_eq_assemble {es : List (Expr α)} {ps : List (α × List (Expr α))}
    (parts : List.Forall₂ (fun e p => HasFactors e p.1 p.2) es ps) (separate : Separate (ps.flatMap (·.2))) :
    ∃ gs, gs.Perm (ps.flatMap (·.2)) ∧ mkProduct es = assemble (ps.map (·.1)).prod gs := by
  have constants : ((factorsList es).filterMap constant?).foldl (· * ·) 1 = (ps.map (·.1)).prod := by
    rw [← List.prod_eq_foldl]
    clear separate
    induction parts with
    | nil => rfl
    | cons first _ ih => rw [factorsList, List.filterMap_append, List.prod_append, first.constants, ih]; rfl
  have varying : ((factorsList es).filter (·.constant?.isNone)).Perm (ps.flatMap (·.2)) := by
    clear separate constants
    induction parts with
    | nil => exact List.Perm.refl _
    | cons first _ ih =>
      rw [factorsList, List.filter_append]
      exact first.varying.append ih
  have separate := separate.perm varying.symm
  obtain ⟨gs, perm, same⟩ := exists_mkProduct_eq separate.factor separate.steady separate.distinct
  exact ⟨gs, perm.trans varying, constants ▸ same⟩

theorem hasFactors_mkProduct {es : List (Expr α)} {ps : List (α × List (Expr α))}
    (parts : List.Forall₂ (fun e p => HasFactors e p.1 p.2) es ps) (separate : Separate (ps.flatMap (·.2)))
    (nonzero : (ps.map (·.1)).prod ≠ 0) : HasFactors (mkProduct es) (ps.map (·.1)).prod (ps.flatMap (·.2)) := by
  obtain ⟨gs, perm, same⟩ := exists_mkProduct_eq_assemble parts separate
  rw [same]
  exact (hasFactors_assemble nonzero (separate.perm perm.symm).factor).perm perm

/-- Constants before and after an expression have no other factors. -/
theorem HasFactors.among_constants (h : HasFactors e c fs) (before after : List α) :
    ∃ ps : List (α × List (Expr α)),
      List.Forall₂ (fun e p => HasFactors e p.1 p.2) (before.map num ++ e :: after.map num) ps ∧
        ps.flatMap (·.2) = fs ∧ (ps.map (·.1)).prod = before.prod * after.prod * c := by
  have constants (vs : List α) : List.Forall₂ (fun e (p : α × List (Expr α)) => HasFactors e p.1 p.2) (vs.map num)
      (vs.map fun v => (v, [])) :=
    List.forall₂_map_left_iff.mpr (List.forall₂_map_right_iff.mpr (List.forall₂_same.mpr fun v _ => hasFactors_num v))
  have none (vs : List α) : (vs.map fun v => (v, ([] : List (Expr α)))).flatMap (·.2) = [] :=
    List.flatMap_eq_nil_iff.mpr (List.forall_mem_map.mpr fun _ _ => rfl)
  refine ⟨before.map (fun v => (v, [])) ++ (c, fs) :: after.map fun v => (v, []),
    List.rel_append (constants before) (.cons h (constants after)), ?_, ?_⟩
  · rw [List.flatMap_append, List.flatMap_cons, none, none, List.nil_append, List.append_nil]
  simp only [List.map_append, List.map_cons, List.map_map, Function.comp_def, List.map_id', List.prod_append,
    List.prod_cons]
  ring

/-- Separate factors are multiplied by a constant. -/
theorem HasFactors.scale {d : α} (h : HasFactors e d fs) (separate : Separate fs) (nonzero : d ≠ 0) (unit : c ≠ 0) :
    HasFactors (mkProduct [num c, e]) (c * d) fs := by
  obtain ⟨ps, parts, varying, constant⟩ := h.among_constants [c] []
  rw [List.prod_singleton, List.prod_nil, mul_one] at constant
  have product := hasFactors_mkProduct parts (varying.symm ▸ separate) (constant ▸ mul_ne_zero unit nonzero)
  rwa [varying, constant] at product

theorem Separate.exists_mkProduct_eq_assemble (h : Separate fs) :
    ∃ gs, gs.Perm fs ∧ mkProduct fs = assemble 1 gs := by
  have parts : List.Forall₂ (fun e (p : α × List (Expr α)) => HasFactors e p.1 p.2) fs (fs.map fun f => (1, [f])) :=
    List.forall₂_map_right_iff.mpr (List.forall₂_same.mpr fun f hf => (h.factor f hf).hasFactors)
  have themselves : (fs.map fun f => ((1 : α), [f])).flatMap (·.2) = fs := by
    rw [List.flatMap_map, List.flatMap_singleton']
  have unit : ((fs.map fun f => ((1 : α), [f])).map (·.1)).prod = 1 := by
    rw [List.map_map]
    exact List.prod_map_one
  have product := Expr.exists_mkProduct_eq_assemble parts (themselves.symm ▸ h)
  rwa [themselves, unit] at product

theorem Separate.hasFactors_mkProduct (h : Separate fs) : HasFactors (mkProduct fs) 1 fs := by
  obtain ⟨gs, perm, same⟩ := h.exists_mkProduct_eq_assemble
  rw [same]
  exact (hasFactors_assemble one_ne_zero (h.perm perm.symm).factor).perm perm

theorem assemble_singleton (c : α) (f : Expr α) :
    assemble c [f] = if Scalar.isZero c then zero else if Scalar.isOne c then f else product [num c, f] := by
  have lone : sort [f] = [f] := List.perm_singleton.mp (sortBy_perm _ [f])
  rw [assemble_eq, lone, mkNum_eq]
  split_ifs <;> rfl

theorem separate_singleton (factor : IsFactor f) (steady : IsSteady f) : Separate [f] where
  factor := List.forall_mem_singleton.mpr factor
  steady := List.forall_mem_singleton.mpr steady
  distinct := List.nodup_singleton _

/-- A multiple of a lone factor is multiplied by constants. -/
theorem HasFactors.mkProduct_eq_assemble (h : HasFactors e c [f]) (factor : IsFactor f) (steady : IsSteady f)
    (before after : List α) :
    mkProduct (before.map num ++ e :: after.map num) = assemble (before.prod * after.prod * c) [f] := by
  obtain ⟨ps, parts, varying, constant⟩ := h.among_constants before after
  obtain ⟨gs, perm, same⟩ := exists_mkProduct_eq_assemble parts (varying.symm ▸ separate_singleton factor steady)
  rw [varying] at perm
  rw [same, List.perm_singleton.mp perm, constant]

/-- A lone factor behind a constant. -/
theorem mkProduct_num_factor (c : α) (factor : IsFactor f) (steady : IsSteady f) :
    mkProduct [num c, f] = if Scalar.isZero c then zero else if Scalar.isOne c then f else product [num c, f] := by
  rw [← assemble_singleton]
  simpa using factor.hasFactors.mkProduct_eq_assemble factor steady [c] []

theorem IsBase.mkProduct_eq (h : IsBase b) : mkProduct [b] = b := by
  obtain ⟨gs, perm, same⟩ := (separate_singleton h.toIsFactor h.isSteady).exists_mkProduct_eq_assemble
  rw [same, List.perm_singleton.mp perm, assemble_singleton, if_neg (by simp), if_pos (by simp)]

/-! ## Quotients -/

variable {bs : List (Expr α)}

theorem separate_bases (bases : ∀ b ∈ bs, IsBase b) (distinct : bs.Nodup) : Separate bs where
  factor b hb := (bases b hb).toIsFactor
  steady b hb := (bases b hb).isSteady
  distinct := by
    rw [List.map_congr_left (g := id) fun b hb => congrArg Prod.fst (bases b hb).basePower_eq, List.map_id]
    exact distinct

theorem separate_inverses (bases : ∀ b ∈ bs, IsBase b) (distinct : bs.Nodup) : Separate (bs.map inverse) where
  factor := List.forall_mem_map.mpr fun b _ => isFactor_power b _
  steady := List.forall_mem_map.mpr fun b hb => (bases b hb).isSteady_inverse
  distinct := by
    rw [List.map_map]
    exact (List.map_id bs).symm ▸ distinct

/-- The inverse of a product of bases is made of their inverses. -/
theorem hasFactors_inverse (bases : ∀ b ∈ bs, IsBase b) (distinct : bs.Nodup) (nonempty : bs ≠ []) :
    HasFactors (mkPow (mkProduct bs) (num (-1))) 1 (bs.map inverse) := by
  obtain ⟨gs, perm, same⟩ := (separate_bases bases distinct).exists_mkProduct_eq_assemble
  have perm : (sort gs).Perm bs := (sortBy_perm _ gs).trans perm
  have bases : ∀ b ∈ sort gs, IsBase b := fun b hb => bases b (perm.mem_iff.mp hb)
  rw [same, assemble_eq, if_neg (by simp), if_pos (by simp)]
  refine HasFactors.perm ?_ (perm.map inverse)
  have distinct := perm.nodup_iff.mpr distinct
  have nonempty : sort gs ≠ [] := fun none => nonempty (List.nil_perm.mp (none ▸ perm))
  generalize sort gs = l at bases distinct nonempty
  rcases l with _ | ⟨b, _ | ⟨b', l⟩⟩
  · exact absurd rfl nonempty
  · show HasFactors (mkPow b (num (-1))) 1 [inverse b]
    rw [(bases b List.mem_cons_self).mkPow_minus_one]
    exact (isFactor_power b _).hasFactors
  · -- the power is distributed, and what it leaves is separate again
    have distributed : mkPow (product (b :: b' :: l)) (num (-1)) = mkProduct ((b :: b' :: l).map inverse) := by
      rw [mkPow_integral rfl isIntegral_minus_one, if_neg (by simp), if_neg (by simpa using minus_one_ne_one)]
      exact congrArg mkProduct (List.map_congr_left fun x hx => (bases x hx).mkPow_minus_one)
    show HasFactors (mkPow (product (b :: b' :: l)) (num (-1))) 1 ((b :: b' :: l).map inverse)
    rw [distributed]
    exact (separate_inverses bases distinct).hasFactors_mkProduct

theorem neg_eq_mkProduct (e : Expr α) : -e = mkProduct [num (-1), e] := by
  show mkProduct [mkNum (-1), e] = _
  rw [mkNum_eq]

/-- To divide by a constant is to multiply by its inverse. -/
theorem div_num_eq (e : Expr α) (d : α) : e / num d = mkProduct [e, num d⁻¹] := by
  show mkProduct [e, mkPow (num d) (mkNum (-1))] = _
  rw [mkNum_eq, mkPow_num_num, mkNum_eq, Scalar.pow_eq_zpow isIntegral_minus_one, ← Int.cast_one, ← Int.cast_neg,
    Scalar.toInt_intCast, zpow_neg_one]

theorem hasFactors_quotient (bases : ∀ b ∈ bs, IsBase b) (distinct : bs.Nodup) (nonempty : bs ≠ [])
    (nonzero : c ≠ 0) : HasFactors (num c / mkProduct bs) c (bs.map inverse) := by
  show HasFactors (mkProduct [num c, mkPow (mkProduct bs) (mkNum (-1))]) c (bs.map inverse)
  rw [mkNum_eq]
  have inverses := hasFactors_inverse bases distinct nonempty
  have scaled := inverses.scale (separate_inverses bases distinct) one_ne_zero nonzero
  rwa [mul_one] at scaled

/-- A quotient is defined only where no base of its divisor is zero, and so is its negation. -/
theorem value_ne_zero_of_quotient {ℓ : Symbol → Option α} (bases : ∀ b ∈ bs, IsBase b) (distinct : bs.Nodup)
    (nonempty : bs ≠ []) (nonzero : c ≠ 0)
    (h : Regular ℓ (num c / mkProduct bs) ∨ Regular ℓ (-(num c / mkProduct bs))) : value ℓ (mkProduct bs) ≠ 0 := by
  have quotient := hasFactors_quotient bases distinct nonempty nonzero
  have inverses : ∀ b ∈ bs, Regular ℓ (inverse b) := by
    intro b hb
    rcases h with h | h
    · exact quotient.regular h (List.mem_map_of_mem hb)
    · have negated := quotient.scale (separate_inverses bases distinct) nonzero minus_one_ne_zero
      rw [neg_eq_mkProduct] at h
      exact negated.regular h (List.mem_map_of_mem hb)
  have defined : ∀ b ∈ bs, Regular ℓ b := fun b hb => (regular_of_inverse (inverses b hb)).1
  rw [(mkProduct_denotes defined).2]
  refine List.prod_ne_zero fun zero => ?_
  obtain ⟨b, hb, vanishes⟩ := List.mem_map.mp zero
  exact (regular_of_inverse (inverses b hb)).2 vanishes

end AnalogCircuit.Expr
