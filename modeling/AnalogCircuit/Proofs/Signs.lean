import AnalogCircuit.Proofs.Merging
/-!
# Signs

A term with a negative coefficient is written as a subtraction and a leading factor `-1` as a sign. The way back leads
to the same term: negating what has been subtracted, or what stands behind the sign, multiplies the coefficient by `-1`
again and leaves everything else as it was. Of the numbers only those matter that are finite and no negative zero; the
laws that are needed of them are the fields of `Signed`.
-/

namespace AnalogCircuit

/-! ## Numbers with a sign -/

namespace Scalar

variable {α : Type} [Scalar α]

/-- A finite number; if it is zero, it has no sign. -/
structure IsPlain (v : α) : Prop where
  finite : isFinite v = true
  unsigned : isZero v = true → v = 0

/-- A number that is written as its magnitude behind a sign. -/
structure IsNegated (v : α) : Prop where
  isPlain_neg : IsPlain (-v)
  nonnegative : lt (-v) 0 = false
  isZero_neg : isZero (-v) = false
  isZero : isZero v = false
  isOne : isOne v = false
  neg_neg : -(-v) = v
  minusOne_mul : -1 * -v = v
  abs : abs v = -v
  text : text v = '-' :: text (-v)

end Scalar

/-- A number system in which the plain numbers have signs. -/
class Signed (α : Type) [Scalar α] : Prop extends Unital α where
  isNeutral {v : α} : Scalar.IsPlain v → Scalar.IsNeutral v
  mul_one {v : α} : Scalar.IsPlain v → v * 1 = v
  eq_of_isOne {v : α} : Scalar.isOne v = true → v = 1
  eq_of_eq_minusOne {v : α} : Scalar.eq v (-1) = true → v = -1
  isPlain_minusOne : Scalar.IsPlain (-1 : α)
  isNegated {v : α} : Scalar.IsPlain v → Scalar.lt v 0 = true → Scalar.IsNegated v
  abs_of_nonnegative {v : α} : Scalar.IsPlain v → Scalar.lt v 0 = false → Scalar.abs v = v

namespace Expr

variable {α : Type} [Scalar α]

/-- The constants of the expression are plain. -/
def IsPlain (e : Expr α) : Prop := ∀ v, num v ∈ e.nodes → Scalar.IsPlain v

variable {e t s g : Expr α} {es es' fs gs ps : List (Expr α)} {c v : α}

theorem IsPlain.child (h : IsPlain e) {x : Expr α} (hx : x ∈ e.children) : IsPlain x := by
  intro v hv
  refine h v ?_
  rw [nodes_eq]
  exact List.mem_cons_of_mem _ (List.mem_flatMap.mpr ⟨x, hx, hv⟩)

theorem IsPlain.num (h : IsPlain (num v)) : Scalar.IsPlain v := h v (by simp [nodes])

theorem IsPlain.isNeutral [Signed α] (h : IsPlain e) : IsNeutral e := fun v hv => Signed.isNeutral (h v hv)

theorem mkNum_of_plain (h : Scalar.IsPlain v) : mkNum v = Expr.num v := by
  by_cases zero : Scalar.isZero v
  · simp [mkNum, h.unsigned zero]
  · simp [mkNum, zero]

/-! ## Products by their factors -/

/-- A product depends on the product of its constants and on its other factors. -/
theorem mkProduct_congr
    (constants : ((factorsList es).filterMap constant?).foldl (· * ·) (1 : α) =
      ((factorsList es').filterMap constant?).foldl (· * ·) 1)
    (others : (factorsList es).filter (·.constant?.isNone) = (factorsList es').filter (·.constant?.isNone)) :
    mkProduct es = mkProduct es' := by
  have collected : collectFactors (factorsList es) = collectFactors (factorsList es') := by
    rw [collectFactors_eq, collectFactors_eq, others]
  rw [mkProduct_eq_assemble, mkProduct_eq_assemble, collectedPowers, collectedPowers, collected, constants]

omit [Scalar α] in
theorem factors_ofFactors (fs : List (Expr α)) : (ofFactors fs).factors = factorsList fs := by
  unfold ofFactors
  split
  · simp [factorsList]
  · rfl

/-- Factors can be multiplied in two steps. -/
theorem ofFactors_mul (ps : List (Expr α)) (g : Expr α) : ofFactors ps * g = mkProduct (ps ++ [g]) := by
  have same : factorsList [ofFactors ps, g] = factorsList (ps ++ [g]) := by
    rw [factorsList, factors_ofFactors, factorsList_append]
  show mkProduct [ofFactors ps, g] = mkProduct (ps ++ [g])
  exact mkProduct_congr (by rw [same]) (by rw [same])

variable [Std.TransCmp (Scalar.order (α := α))] [Std.LawfulEqCmp (Scalar.order (α := α))]

/-- Constants are multiplied. -/
theorem mkProduct_of_constants (vs : List α) :
    mkProduct (vs.map Expr.num) = assemble (vs.foldl (· * ·) 1) [] := by
  have flat : factorsList (vs.map Expr.num) = vs.map Expr.num :=
    factorsList_of_unnested fun f hf gs same => by
      obtain ⟨v, -, rfl⟩ := List.mem_map.mp hf
      cases same
  have constants : (vs.map Expr.num).filterMap constant? = vs := by
    rw [List.filterMap_map]
    exact List.filterMap_some
  have others : (vs.map Expr.num).filter (·.constant?.isNone) = [] := by
    simp [List.filter_eq_nil_iff, constant?]
  have whole : mkProduct (vs.map Expr.num) = _ :=
    mkProduct_of_steady (by simp [flat, others]) (by simp [flat, others]) (by simp [flat, others])
  rwa [flat, constants, others] at whole

omit [Std.TransCmp (Scalar.order (α := α))] [Std.LawfulEqCmp (Scalar.order (α := α))] in
/-- The first factors of a product are as a product leaves them. -/
theorem TidyFactors.take (h : TidyFactors (ps ++ gs)) (several : 2 ≤ ps.length) : TidyFactors ps := by
  generalize whole : ps ++ gs = fs at h
  cases h with
  | plain sorted factor _ =>
    have sub : ps.Sublist fs := whole ▸ List.sublist_append_left ps gs
    exact .plain (sorted.sublist sub) (fun g hg => factor g (sub.subset hg)) several
  | @scaled c gs' sorted factor _ nonzero proper =>
    rcases ps with _ | ⟨p, ps⟩
    · cases several
    · obtain ⟨rfl, rest⟩ := List.cons.inj whole
      have sub : ps.Sublist gs' := rest ▸ List.sublist_append_left ps gs
      have some : ps ≠ [] := List.ne_nil_of_length_pos (Nat.le_of_succ_le_succ several)
      exact .scaled (sorted.sublist sub) (fun g hg => factor g (sub.subset hg)) some nonzero proper

variable [Signed α]

/-- The first factors of a canonical product are multiplied as they are. -/
theorem mkProduct_take (tidy : IsTidy (product (ps ++ gs))) (merged : IsMerged (product (ps ++ gs)))
    (plain : IsPlain (product (ps ++ gs))) (several : 2 ≤ ps.length) : mkProduct ps = ofFactors ps := by
  have mem {f : Expr α} (hf : f ∈ ps) : f ∈ (product (ps ++ gs)).children := List.mem_append_left gs hf
  obtain ⟨factors, -⟩ := isTidy_product.mp tidy
  obtain ⟨distinct, parts⟩ := isMerged_iff.mp merged
  have part : IsMerged (product ps) := by
    refine isMerged_iff.mpr ⟨?_, fun f hf => parts f (mem hf)⟩
    have sub : (bases ps).Sublist (bases (ps ++ gs)) := ((List.sublist_append_left ps gs).filter _).map _
    exact sub.nodup distinct
  rw [ofFactors_of_several several]
  exact mkProduct_of_tidy (factors.take several) (fun f hf => tidy.child (mem hf))
    (fun f hf => (plain.child (mem hf)).isNeutral) part

/-! ## Negation -/

omit [Std.TransCmp (Scalar.order (α := α))] [Std.LawfulEqCmp (Scalar.order (α := α))] in
theorem neg_eq (e : Expr α) : -e = mkProduct [Expr.num (-1), e] := by
  show mkProduct [mkNum (-1), e] = _
  rw [mkNum_of_plain Signed.isPlain_minusOne]

theorem neg_num (h : Scalar.IsNegated v) : -(Expr.num (-v) : Expr α) = Expr.num v := by
  have one : (1 : α) * -1 = -1 := (Signed.isNeutral Signed.isPlain_minusOne).one_mul
  have whole := mkProduct_of_constants [(-1 : α), -v]
  simp only [List.map_cons, List.map_nil, List.foldl_cons, List.foldl_nil, one, h.minusOne_mul] at whole
  rw [neg_eq, whole, assemble_eq, h.isZero, h.isOne, mkNum_of_nonzero h.isZero]
  rfl

omit [Std.TransCmp (Scalar.order (α := α))] [Std.LawfulEqCmp (Scalar.order (α := α))] in
/-- Negating a product with the magnitude of its coefficient puts the sign back. -/
theorem neg_scale (plain : Scalar.IsPlain c) (h : Scalar.IsNegated c) (factors : TidyFactors (Expr.num c :: fs)) :
    -(Expr.scale (-c) (ofFactors fs)) = mkProduct (Expr.num c :: fs) := by
  have one : (1 : α) * -1 = -1 := (Signed.isNeutral Signed.isPlain_minusOne).one_mul
  have lead : factorsList (Expr.num c :: fs) = Expr.num c :: factorsList fs := rfl
  cases factors with
  | plain _ factor _ => cases (factor (Expr.num c) List.mem_cons_self).nonconstant
  | scaled sorted factor some nonzero _ =>
    rw [neg_eq]
    -- A magnitude of one is not written, and comes back as the `-1` of the negation alone.
    by_cases unit : Scalar.isOne (-c)
    · have minusOne : c = -1 := by rw [← h.neg_neg, Signed.eq_of_isOne unit]
      have bare : Expr.scale (-c) (ofFactors fs) = ofFactors fs := by unfold Expr.scale; exact if_pos unit
      have flat : factorsList [Expr.num (-1), ofFactors fs] = Expr.num (-1) :: factorsList fs := by
        simp [factorsList, factors_ofFactors, Expr.factors]
      rw [bare, minusOne]
      exact mkProduct_congr (by rw [flat]; rfl) (by rw [flat]; rfl)
    · have flat : factorsList [Expr.num (-1), product (Expr.num (-c) :: fs)] =
          Expr.num (-1) :: Expr.num (-c) :: factorsList fs := by
        simp [factorsList, Expr.factors]
      rw [scale_ofFactors factor some h.isZero_neg (Bool.eq_false_iff.mpr unit)]
      refine mkProduct_congr ?_ ?_
      · obtain ⟨-, none⟩ := filter_of_nonconstant fun g hg => (factor g hg).nonconstant
        rw [flat, lead, factorsList_of_unnested fun g hg => (factor g hg).unnested]
        simp [constant?, none, one, h.minusOne_mul, (Signed.isNeutral plain).one_mul]
      · rw [flat, lead]
        rfl

end Expr

end AnalogCircuit
