import Mathlib.Data.List.Perm.Subperm
import AnalogCircuit.Proofs.Rebuilding
/-!
# Canonical expressions are merged

A product that its constructor leaves as it is has factors with different bases, and a sum that its constructor leaves
as it is has no sum among its terms.

For products a number decides it. The width of an expression counts the bases in it that a power of it can be
multiplied out to, so collecting two powers of one base takes away at least the width of that base, and multiplying
out what has been collected never gives it back. For sums look at the largest sum among the terms. It is what a term
has beside its coefficient, and that term is found neither among the terms, which differ in more than their
coefficients, nor within a smaller sum.
-/

namespace AnalogCircuit.Expr

variable {α : Type}

/-! ## Width -/

mutual

/-- The number of bases to which a power of this base can be multiplied out. -/
def width : Expr α → Nat
  | num _ => 0
  | product fs => max 1 (widthList fs)
  | power b _ => max 1 b.width
  | _ => 1

/-- The width of several factors. -/
def widthList : List (Expr α) → Nat
  | [] => 0
  | e :: es => e.width + widthList es

end

variable {e f : Expr α} {es fs gs : List (Expr α)}

theorem widthList_eq_sum (es : List (Expr α)) : widthList es = (es.map width).sum := by
  induction es with
  | nil => rfl
  | cons e es ih => rw [widthList, ih, List.map_cons, List.sum_cons]

theorem one_le_width (h : e.constant? = none) : 1 ≤ e.width := by
  cases e with
  | num v => cases h
  | product fs => exact Nat.le_max_left ..
  | power b x => exact Nat.le_max_left ..
  | _ => exact Nat.le_refl 1

theorem width_basePower [Scalar α] (h : IsFactor f) : max 1 f.basePower.1.width = f.width := by
  cases f with
  | power b x => rfl
  | _ => exact Nat.max_eq_right (one_le_width h.nonconstant)

/-- Flattening does not add width. -/
theorem width_factors (e : Expr α) : (e.factors.map width).sum ≤ e.width := by
  induction e with
  | product fs ih =>
    rw [factors, width, factorsList_eq_flatMap, widthList_eq_sum, List.map_flatMap, List.flatMap_def,
      List.sum_flatten, List.map_map]
    exact Nat.le_trans (List.sum_le_sum ih) (Nat.le_max_right ..)
  | _ => simp [factors]

theorem width_topFactors (e : Expr α) : (e.topFactors.map width).sum ≤ e.width := by
  cases e with
  | product fs =>
    rw [topFactors, width, widthList_eq_sum]
    exact Nat.le_max_right ..
  | _ => simp [topFactors]

/-! ## Collecting loses width -/

/-- Different elements of a list weigh no more than the whole list. -/
theorem sum_le_sum_of_subperm {ι : Type} (w : ι → Nat) {xs ys : List ι} (h : xs.Subperm ys) :
    (xs.map w).sum ≤ (ys.map w).sum := by
  obtain ⟨zs, perm, sub⟩ := h
  rw [← (perm.map w).sum_eq]
  exact (sub.map w).sum_le_sum fun _ _ => Nat.zero_le _

/-- They weigh less if some element comes twice. -/
theorem nodup_of_sum_le {ι : Type} (w : ι → Nat) (positive : ∀ i, 0 < w i) {xs ys : List ι}
    (distinct : xs.Nodup) (sub : xs ⊆ ys) (le : (ys.map w).sum ≤ (xs.map w).sum) : ys.Nodup := by
  have subperm := List.subperm_of_subset distinct sub
  by_cases shorter : xs.length < ys.length
  · obtain ⟨i, more⟩ := subperm.exists_of_length_lt shorter
    have total := sum_le_sum_of_subperm w more
    rw [List.map_cons, List.sum_cons] at total
    have := positive i
    omega
  · exact (subperm.perm_of_length_le (Nat.le_of_not_lt shorter)).nodup_iff.mp distinct

/-- Constants have no width. -/
theorem width_filter (fs : List (Expr α)) : ((fs.filter (·.constant?.isNone)).map width).sum = (fs.map width).sum := by
  induction fs with
  | nil => rfl
  | cons f fs ih =>
    cases constant : f.constant? with
    | none => simp [constant, ih]
    | some v =>
      obtain rfl := constant?_eq_some_iff.mp constant
      simp [constant, width, ih]

section

variable [Scalar α] [Std.TransCmp (Scalar.order (α := α))] [Std.LawfulEqCmp (Scalar.order (α := α))]

omit [Std.TransCmp (Scalar.order (α := α))] in
theorem collected_subset (fs : List (Expr α)) : (collectFactors fs).map (·.1) ⊆ bases fs := by
  intro b hb
  obtain ⟨g, hg, rfl⟩ := List.mem_map.mp hb
  refine (forall_mem_collectFactors (P := (· ∈ bases fs)) (Q := fun _ => True) (fun f hf nonconstant => ?_) g hg).1
  exact ⟨List.mem_map.mpr ⟨f, List.mem_filter.mpr ⟨hf, by simp [nonconstant]⟩, rfl⟩, trivial⟩

omit [Std.TransCmp (Scalar.order (α := α))] [Std.LawfulEqCmp (Scalar.order (α := α))] in
theorem width_bases (h : ∀ f ∈ fs, ∀ gs, f ≠ product gs) :
    ((bases fs).map fun b => max 1 b.width).sum = (fs.map width).sum := by
  rw [bases, List.map_map, ← width_filter]
  refine congrArg List.sum (List.map_congr_left fun f hf => width_basePower ?_)
  obtain ⟨mem, nonconstant⟩ := List.mem_filter.mp hf
  exact ⟨Option.isNone_iff_eq_none.mp nonconstant, h f mem⟩

/-- Collecting does not add width. -/
theorem width_collectFactors (h : ∀ f ∈ fs, ∀ gs, f ≠ product gs) :
    (((collectFactors fs).map (·.1)).map fun b => max 1 b.width).sum ≤ (fs.map width).sum := by
  rw [← width_bases h]
  exact sum_le_sum_of_subperm _ (List.subperm_of_subset (keyed_collectFactors fs).nodup (collected_subset fs))

/-- Bases that come twice are collected, which takes width away. -/
theorem nodup_bases (h : ∀ f ∈ fs, ∀ gs, f ≠ product gs)
    (le : (fs.map width).sum ≤ (((collectFactors fs).map (·.1)).map fun b => max 1 b.width).sum) :
    (bases fs).Nodup := by
  rw [← width_bases h] at le
  exact nodup_of_sum_le _ (fun b => Nat.le_max_left 1 _) (keyed_collectFactors fs).nodup (collected_subset fs) le

/-! ## Multiplying out adds no width -/

omit [Std.TransCmp (Scalar.order (α := α))] [Std.LawfulEqCmp (Scalar.order (α := α))] in
theorem width_assemble (c : α) (fs : List (Expr α)) : (assemble c fs).width ≤ max 1 (fs.map width).sum := by
  have sorted : ((sort fs).map width).sum = (fs.map width).sum := ((sortBy_perm _ fs).map width).sum_eq
  have join (gs : List (Expr α)) : (joinFactors gs).width ≤ max 1 (gs.map width).sum := by
    unfold joinFactors
    split
    · exact Nat.zero_le _
    · simp
    · rw [width, widthList_eq_sum]
  rw [assemble_eq, ← sorted]
  split
  · exact Nat.zero_le _
  split
  · exact join (sort fs)
  · have factors := join (mkNum c :: sort fs)
    rw [List.map_cons, List.sum_cons, mkNum, width, Nat.zero_add] at factors
    exact factors

omit [Std.TransCmp (Scalar.order (α := α))] [Std.LawfulEqCmp (Scalar.order (α := α))] in
/-- A product is as wide as the powers that are collected. -/
theorem width_mkProduct_of {es : List (Expr α)}
    (pow : ∀ g ∈ collectFactors (factorsList es), (mkPow g.1 (mkSum g.2)).width ≤ max 1 g.1.width) :
    (mkProduct es).width ≤ max 1 (((collectFactors (factorsList es)).map (·.1)).map fun b => max 1 b.width).sum := by
  have powers : ((collectedPowers es).map width).sum ≤
      (((collectFactors (factorsList es)).map (·.1)).map fun b => max 1 b.width).sum := by
    rw [collectedPowers, List.map_flatMap, List.flatMap_def, List.sum_flatten, List.map_map, List.map_map]
    exact List.sum_le_sum fun g hg => Nat.le_trans (width_topFactors _) (pow g hg)
  rw [mkProduct_eq_assemble]
  dsimp only
  split
  · exact Nat.zero_le _
  · refine Nat.le_trans (width_assemble _ _) ?_
    rw [width_filter]
    omega

/-- A power is no wider than its base, and a product no wider than its factors together. -/
theorem width_mkPow_mkProduct :
    (∀ b x : Expr α, (mkPow b x).width ≤ max 1 b.width) ∧
      ∀ es : List (Expr α), (mkProduct es).width ≤ max 1 (es.map width).sum := by
  apply rank_induction
  · intro b power product x
    have raised := raised_mkPow b x
    generalize mkPow b x = r at raised
    cases raised with
    | plain => exact Nat.le_refl _
    | constant v => exact Nat.zero_le _
    | base => exact Nat.le_max_right ..
    | @power i y n base exponent =>
      subst base
      have inner := power i (baseRank_lt_power i y) (mkProduct [y, num n])
      exact Nat.le_trans inner (Nat.le_max_right ..)
    | @product fs n base exponent =>
      subst base
      have whole := product _ (factorRankList_map_mkPow_lt fs (num n))
      have each : ((fs.map (mkPow · (num n))).map width).sum ≤ (fs.map width).sum := by
        rw [List.map_map]
        refine List.sum_le_sum fun f hf => ?_
        cases constant : f.constant? with
        | none =>
          have power := power f (baseRank_lt_product hf) (num n)
          rwa [Nat.max_eq_right (one_le_width constant)] at power
        | some v =>
          obtain rfl := constant?_eq_some_iff.mp constant
          show (mkPow (num v) (num n)).width ≤ 0
          rw [mkPow_num_num]
          exact Nat.le_refl 0
      rw [width, widthList_eq_sum]
      omega
  · intro es pow
    refine Nat.le_trans (width_mkProduct_of fun g hg => pow g.1 (baseRank_of_mem_collectFactorsList hg) _) ?_
    have collected := width_collectFactors fun f (hf : f ∈ factorsList es) => factorsList_ne_product hf
    have flat : ((factorsList es).map width).sum ≤ (es.map width).sum := by
      rw [factorsList_eq_flatMap, List.map_flatMap, List.flatMap_def, List.sum_flatten, List.map_map]
      exact List.sum_le_sum fun e _ => width_factors e
    omega

/-- Factors that their product leaves as they are have different bases. -/
theorem nodup_of_mkProduct (h : TidyFactors fs) (rebuilt : mkProduct fs = product fs) : (bases fs).Nodup := by
  have bound : (mkProduct fs).width ≤
      max 1 (((collectFactors (factorsList fs)).map (·.1)).map fun b => max 1 b.width).sum :=
    width_mkProduct_of fun g _ => width_mkPow_mkProduct.1 g.1 _
  rw [factorsList_of_unnested h.unnested, rebuilt, width, widthList_eq_sum] at bound
  by_cases several : 2 ≤ (bases fs).length
  · refine nodup_bases h.unnested ?_
    have each : ∀ n ∈ (bases fs).map fun b => max 1 b.width, 1 ≤ n := by
      simp
    have total := List.length_le_sum_of_one_le _ each
    rw [List.length_map, width_bases h.unnested] at total
    omega
  · generalize bases fs = bs at several
    rcases bs with _ | ⟨b, _ | ⟨b', bs⟩⟩
    · exact List.nodup_nil
    · exact List.nodup_singleton b
    · simp at several

/-! ## Sums -/

omit [Scalar α] [Std.TransCmp (Scalar.order (α := α))] [Std.LawfulEqCmp (Scalar.order (α := α))] in
/-- Flattening leaves no sum among the terms, and none of them is larger than the whole. -/
theorem flat_terms {t : Expr α} (h : t ∈ e.terms) : (∀ us, t ≠ sum us) ∧ t.size ≤ e.size := by
  induction e with
  | sum ts ih =>
    rw [terms, termsList_eq_flatMap] at h
    obtain ⟨e, he, ht⟩ := List.mem_flatMap.mp h
    obtain ⟨flat, small⟩ := ih e he ht
    have part := size_le_of_mem he
    rw [size]
    exact ⟨flat, by omega⟩
  | _ =>
    simp only [terms, List.mem_singleton] at h
    subst h
    exact ⟨by simp, Nat.le_refl _⟩

omit [Std.TransCmp (Scalar.order (α := α))] in
/-- A sum that is added up is what a term has beside its coefficient. -/
theorem exists_of_sum_mem_summands {us : List (Expr α)} (h : sum us ∈ summands es) :
    ∃ c, product [num c, sum us] ∈ termsList es := by
  have origin (p : Expr α × α) (hp : p ∈ collectTerms (termsList es)) :
      p.1 = sum us → ∃ c, product [num c, sum us] ∈ termsList es := by
    refine forall_mem_collectTerms (P := (· = sum us → ∃ c, product [num c, sum us] ∈ termsList es))
      (fun t ht _ => ?_) p hp
    intro key
    unfold splitCoefficient at key
    split at key
    · next c fs _ =>
      obtain rfl : fs = [sum us] := by
        unfold ofFactors at key
        split at key
        · exact congrArg (fun f => [f]) key
        · cases key
      exact ⟨c, ht⟩
    · cases key
    · rw [termsList_eq_flatMap] at ht
      obtain ⟨e, -, ht⟩ := List.mem_flatMap.mp ht
      exact absurd key ((flat_terms ht).1 us)
  rcases List.mem_append.mp h with scaled | constant
  · obtain ⟨p, hp, same⟩ := List.mem_map.mp scaled
    refine origin p (List.mem_filter.mp hp).1 ?_
    unfold scale at same
    split at same
    · exact same
    · split at same <;> cases same
  · split at constant
    · cases constant
    · cases List.mem_singleton.mp constant

omit [Std.TransCmp (Scalar.order (α := α))] in
/-- Terms that their sum leaves as they are are no sums. -/
theorem flat_of_mkSum {ts : List (Expr α)} (tidy : TidyTerms ts) (rebuilt : mkSum ts = sum ts) :
    ∀ t ∈ ts, ∀ us, t ≠ sum us := by
  have size_multiple (c : α) (us : List (Expr α)) :
      (sum us).size < (product [num c, sum us]).size := by
    simp only [size, sizeList]
    omega
  -- The sum of the terms is put together from them, not from itself.
  have kept : sort (summands ts) = ts := by
    rw [mkSum_eq] at rebuilt
    unfold ofTerms at rebuilt
    split at rebuilt
    · cases rebuilt
    · next e lone =>
      have whole : sum ts ∈ summands ts := by
        rw [← (sortBy_perm _ (summands ts)).mem_iff]
        exact lone ▸ List.mem_singleton.mpr rebuilt.symm
      obtain ⟨c, inside⟩ := exists_of_sum_mem_summands whole
      have small := (flat_terms (e := sum ts) inside).2
      exact absurd (size_multiple c ts) (Nat.not_lt.mpr small)
    · exact sum.inj rebuilt
  -- A sum among the terms is part of a larger one, which cannot go on.
  have larger (us : List (Expr α)) (h : sum us ∈ ts) : ∃ us', sum us' ∈ ts ∧ (sum us).size < (sum us').size := by
    have added : sum us ∈ summands ts := by
      rw [← (sortBy_perm _ (summands ts)).mem_iff]
      exact kept ▸ h
    obtain ⟨c, inside⟩ := exists_of_sum_mem_summands added
    rw [termsList_eq_flatMap] at inside
    obtain ⟨t, ht, inside⟩ := List.mem_flatMap.mp inside
    cases t with
    | sum us' => exact ⟨us', ht, Nat.lt_of_lt_of_le (size_multiple c us) (flat_terms inside).2⟩
    | product fs =>
      simp only [terms, List.mem_singleton] at inside
      -- The multiple and the sum would be two terms that differ in their coefficients only.
      have same : product fs = sum us := List.inj_on_of_nodup_map tidy.distinct ht h (by rw [← inside]; rfl)
      cases same
    | _ => simp [terms] at inside
  have bounded (n : Nat) : ∀ us, sum us ∈ ts → sizeList ts < (sum us).size + n → False := by
    induction n with
    | zero => exact fun us h big => absurd (size_le_of_mem h) (Nat.not_le.mpr big)
    | succ n ih =>
      intro us h big
      obtain ⟨us', h', less⟩ := larger us h
      exact ih us' h' (by omega)
  rintro t ht us rfl
  exact bounded (sizeList ts + 1) us ht (by omega)

/-! ## Canonical expressions -/

theorem IsCanonical.isMerged (h : IsCanonical e) : IsMerged e := by
  induction e using children_ind with
  | step e ih =>
    obtain ⟨rebuilt, parts⟩ := isCanonical_iff.mp h
    have tidy := (isTidy_iff.mp h.isTidy).1
    refine isMerged_iff.mpr ⟨?_, fun x hx => ih x hx (parts x hx)⟩
    cases e with
    | sum ts => exact flat_of_mkSum tidy.2 (by simpa [mapChildren] using rebuilt)
    | product fs => exact nodup_of_mkProduct tidy (by simpa [mapChildren] using rebuilt)
    | _ => trivial

/-- For tidy expressions, to be canonical and to be merged is the same. -/
theorem IsTidy.isCanonical_iff [Unital α] (h : IsTidy e) (neutral : IsNeutral e) : IsCanonical e ↔ IsMerged e :=
  ⟨IsCanonical.isMerged, h.isCanonical neutral⟩

end

end AnalogCircuit.Expr
