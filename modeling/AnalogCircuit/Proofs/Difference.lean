import AnalogCircuit.Proofs.Combination
/-!
# Quotients of differences

A sum of multiples of symbols is a constant, or a multiple of a single symbol or sum. Divided by something of another
kind it keeps the divisor among its factors, unless it is zero. So a quotient of a difference of symbols by an
application of a function is defined wherever its negation is, and a sign that is put in front cancels nothing.
-/

namespace AnalogCircuit.Expr

variable {α : Type} [ExactScalar α]

/-! ## Sums of multiples of symbols -/

/-- The expression is a constant, or a multiple of a symbol or of a sum. -/
def IsMultiple (e : Expr α) : Prop :=
  ∃ c bs, HasFactors e c bs ∧ bs.length ≤ 1 ∧ ∀ b ∈ bs, (∃ s, b = sym s) ∨ ∃ ts, b = sum ts

theorem isMultiple_num (v : α) : IsMultiple (num v) :=
  ⟨v, [], hasFactors_num v, Nat.zero_le 1, fun _ hb => absurd hb List.not_mem_nil⟩

theorem isMultiple_sum (ts : List (Expr α)) : IsMultiple (sum ts) :=
  ⟨1, [sum ts], (isBase_sum ts).toIsFactor.hasFactors, Nat.le_refl 1,
    List.forall_mem_singleton.mpr (.inr ⟨ts, rfl⟩)⟩

theorem isMultiple_scale (c : α) (s : Symbol) : IsMultiple (scale c (sym s)) := by
  have base : IsBase (sym s : Expr α) := isBase_sym s
  have alone : ∀ b ∈ [(sym s : Expr α)], (∃ s, b = sym s) ∨ ∃ ts, b = sum ts :=
    List.forall_mem_singleton.mpr (.inl ⟨s, rfl⟩)
  rw [base.scale_eq]
  split
  · exact ⟨1, [sym s], base.toIsFactor.hasFactors, Nat.le_refl 1, alone⟩
  · exact ⟨c, [sym s], hasFactors_multiple c base.toIsFactor, Nat.le_refl 1, alone⟩

/-- Multiples of symbols add up to a sum, if more than one is left, or to one of them. -/
theorem isMultiple_mkSum {es : List (Expr α)}
    (h : ∀ t ∈ termsList es, t.constant? = none → ∃ s, t.splitCoefficient.2 = sym s) : IsMultiple (mkSum es) := by
  have parts : ∀ x ∈ sort (summands es), IsMultiple x := by
    intro x hx
    have hx := (sortBy_perm _ (summands es)).mem_iff.mp hx
    unfold summands at hx
    rcases List.mem_append.mp hx with like | constant
    · obtain ⟨p, hp, rfl⟩ := List.mem_map.mp like
      obtain ⟨s, key⟩ :=
        forall_mem_collectTerms (P := fun e => ∃ s, e = sym s) h p (List.mem_of_mem_filter hp)
      rw [key]
      exact isMultiple_scale p.2 s
    · split at constant
      · cases constant
      · rw [List.mem_singleton.mp constant, mkNum_eq]
        exact isMultiple_num _
  rw [mkSum_eq]
  generalize sort (summands es) = l at parts
  rcases l with _ | ⟨t, _ | ⟨u, ts⟩⟩
  · exact isMultiple_num 0
  · exact parts t List.mem_cons_self
  · exact isMultiple_sum _

/-! ## Differences -/

/-- The expression is zero or a symbol. -/
def IsPotential (e : Expr α) : Prop := e = zero ∨ ∃ s, e = sym s

theorem IsPotential.isMultiple_sub {x y : Expr α} (hx : IsPotential x) (hy : IsPotential y) : IsMultiple (x - y) := by
  have left : ∀ t ∈ x.terms, t.constant? = none → ∃ s, t.splitCoefficient.2 = sym s := by
    rcases hx with rfl | ⟨s, rfl⟩
    · simp [zero, terms, constant?]
    · simp [terms, splitCoefficient]
  have right : ∀ t ∈ (-y).terms, t.constant? = none → ∃ s, t.splitCoefficient.2 = sym s := by
    rw [neg_eq_mkProduct]
    rcases hy with rfl | ⟨s, rfl⟩
    · rw [zero, mkProduct_nums]
      simp [terms, constant?]
    · have negated : mkProduct [num (-1), sym s] = product [num (-1), (sym s : Expr α)] := by
        rw [mkProduct_num_factor (-1) (isBase_sym s).toIsFactor (isBase_sym s).isSteady,
          if_neg (by simp), if_neg (by simpa using minus_one_ne_one)]
      rw [negated]
      simp [terms, splitCoefficient, ofFactors]
  show IsMultiple (mkSum [x, -y])
  refine isMultiple_mkSum ?_
  intro t ht
  rcases List.mem_append.mp ht with here | there
  · exact left t here
  · exact right t ((List.mem_append.mp there).resolve_right List.not_mem_nil)

/-! ## Quotients -/

/-- The negation of a quotient by a base that is no symbol and no sum is defined only where the quotient is. -/
theorem IsMultiple.regular_of_neg {M : Interpretation α} {d l : Expr α} (multiple : IsMultiple d)
    (regular : M.Regular d) (base : IsBase l) (other : ∀ s, l ≠ sym s) (flat : ∀ ts, l ≠ sum ts)
    (h : M.Regular (-(d / l))) : M.Regular (d / l) := by
  obtain ⟨c, bs, factors, lone, bases⟩ := multiple
  have isBase : ∀ b ∈ bs, IsBase b := by
    intro b hb
    rcases bases b hb with ⟨s, rfl⟩ | ⟨ts, rfl⟩
    · exact isBase_sym s
    · exact isBase_sum ts
  have quotient : d / l = mkProduct [d, inverse l] := by
    show mkProduct [d, mkPow l (mkNum (-1))] = _
    rw [mkNum_eq, base.mkPow_minus_one]
  have separate : Separate (bs ++ [inverse l]) := by
    constructor
    · exact List.forall_mem_append.mpr
        ⟨fun b hb => (isBase b hb).toIsFactor, List.forall_mem_singleton.mpr (isFactor_power l _)⟩
    · exact List.forall_mem_append.mpr
        ⟨fun b hb => (isBase b hb).isSteady, List.forall_mem_singleton.mpr base.isSteady_inverse⟩
    · have own : ∀ b ∈ bs, b.basePower.1 = b := fun b hb => congrArg Prod.fst (isBase b hb).basePower_eq
      have new : l ∉ bs := by
        intro mem
        rcases bases l mem with ⟨s, same⟩ | ⟨ts, same⟩
        · exact other s same
        · exact flat ts same
      have once : bs.Nodup := by
        rcases bs with _ | ⟨b, _ | ⟨b', bs⟩⟩
        · exact List.nodup_nil
        · exact List.nodup_singleton b
        · simp at lone
      rw [List.map_append, List.map_congr_left own, List.map_id']
      refine List.nodup_append.mpr ⟨once, List.nodup_singleton l, ?_⟩
      intro b hb l' hl'
      obtain rfl : l' = l := List.mem_singleton.mp hl'
      exact ne_of_mem_of_not_mem hb new
  have parts : List.Forall₂ (fun e (p : α × List (Expr α)) => HasFactors e p.1 p.2) [d, inverse l]
      [(c, bs), (1, [inverse l])] := .cons factors (.cons (isFactor_power l _).hasFactors .nil)
  by_cases zero : c = 0
  · -- nothing is left of a difference that is zero
    obtain ⟨gs, -, same⟩ := exists_mkProduct_eq_assemble parts separate
    rw [quotient, same, assemble_eq, if_pos (by simp [zero])]
    exact M.denotes_zero.1
  · have whole : HasFactors (d / l) c (bs ++ [inverse l]) := by
      rw [quotient]
      simpa using hasFactors_mkProduct parts separate (by simpa using zero)
    rw [neg_eq_mkProduct] at h
    have divisor : M.Regular (inverse l) :=
      (whole.scale separate zero minus_one_ne_zero).regular_of h (List.mem_append_right _ List.mem_cons_self)
    rw [quotient]
    exact (M.mkProduct_denotes (by simp [regular, divisor])).1

end AnalogCircuit.Expr
