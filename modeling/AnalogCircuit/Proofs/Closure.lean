import AnalogCircuit.Proofs.Collecting
import AnalogCircuit.Expr.Build
import AnalogCircuit.Expr.Traverse
/-!
# Properties that canonical constructors preserve

A property that holds of a sum, a product or a power exactly when it holds of the parts holds of whatever the
canonical constructors build from expressions that have it. Some properties allow integral exponents only;
these are called strict, and are kept where the numbers do not leave the integers by rounding.
-/

namespace AnalogCircuit.Expr

variable {α : Type}

/-- The expression is a constant without fractional part. -/
def IsIntegral [Scalar α] (e : Expr α) : Prop := ∃ n, e = num n ∧ Scalar.isIntegral n = true

/-- The property holds of a sum, a product or a power exactly when it holds of its parts. -/
structure Hereditary [Scalar α] (strict : Prop) (H : Expr α → Prop) : Prop where
  num (v : α) : H (num v)
  sum (ts : List (Expr α)) : H (sum ts) ↔ ∀ t ∈ ts, H t
  product (fs : List (Expr α)) : H (product fs) ↔ ∀ f ∈ fs, H f
  power (b e : Expr α) : H (power b e) ↔ H b ∧ H e ∧ (strict → IsIntegral e)

/-- If exponents have to be integral, what is added and multiplied of them is integral. -/
class IntegralExponents (α : Type) [Scalar α] (strict : Prop) : Prop where
  one : strict → Scalar.isIntegral (1 : α) = true
  minusOne : strict → IsIntegral (mkNum (-1) : Expr α)
  mkSum (h : strict) {es : List (Expr α)} : (∀ e ∈ es, IsIntegral e) → IsIntegral (mkSum es)
  mkProduct (h : strict) {e e' : Expr α} : IsIntegral e → IsIntegral e' → IsIntegral (mkProduct [e, e'])

/-- Nothing is asked of the numbers where all exponents are allowed. -/
instance [Scalar α] : IntegralExponents α False :=
  ⟨False.elim, False.elim, fun h => h.elim, fun h => h.elim⟩

instance [ExactScalar α] {strict : Prop} : IntegralExponents α strict where
  one _ := Scalar.isIntegral_one
  minusOne _ := ⟨-1, mkNum_eq _, Scalar.isIntegral_neg Scalar.isIntegral_one⟩
  mkSum _ {es} hes := by
    obtain ⟨vs, rfl, integral⟩ : ∃ vs : List α, es = vs.map num ∧ Scalar.isIntegral vs.sum = true := by
      induction es with
      | nil => exact ⟨[], rfl, Scalar.isIntegral_zero⟩
      | cons e es ih =>
        obtain ⟨⟨n, rfl, hn⟩, tail⟩ := List.forall_mem_cons.mp hes
        obtain ⟨vs, rfl, hvs⟩ := ih tail
        exact ⟨n :: vs, rfl, by rw [List.sum_cons]; exact Scalar.isIntegral_add hn hvs⟩
    exact ⟨vs.sum, mkSum_nums vs, integral⟩
  mkProduct _ {e e'} he he' := by
    obtain ⟨m, rfl, hm⟩ := he
    obtain ⟨n, rfl, hn⟩ := he'
    exact ⟨m * n, mkProduct_nums m n, Scalar.isIntegral_mul hm hn⟩

/-- Freedom of certain symbols is a matter of the parts. -/
theorem hereditary_dependsOn [Scalar α] (p : Symbol → Bool) :
    Hereditary False fun e : Expr α => e.dependsOn p = false where
  num _ := rfl
  sum _ := dependsOnList_eq_false_iff
  product _ := dependsOnList_eq_false_iff
  power b e := by simp [dependsOn]

/-! ## Sums -/

/-- The property holds of a sum exactly when it holds of the terms, and the coefficient of a term may be another. -/
structure Termwise [Scalar α] (H : Expr α → Prop) : Prop where
  num (v : α) : H (num v)
  sum (ts : List (Expr α)) : H (sum ts) ↔ ∀ t ∈ ts, H t
  rescale {e : Expr α} (h : H e) (c : α) : H (scale c e.splitCoefficient.2)

namespace Termwise

variable [Scalar α] [Std.LawfulEqCmp (Scalar.order (α := α))] {H : Expr α → Prop}

omit [Std.LawfulEqCmp (Scalar.order (α := α))] in
theorem mkNum (h : Termwise H) (v : α) : H (mkNum v) := h.num _

omit [Std.LawfulEqCmp (Scalar.order (α := α))] in
theorem terms (h : Termwise H) {e : Expr α} (he : H e) : ∀ t ∈ e.terms, H t := by
  induction e with
  | sum ts ih =>
    rw [Expr.terms, termsList_eq_flatMap]
    intro t ht
    obtain ⟨e, hm, ht⟩ := List.mem_flatMap.mp ht
    exact ih e hm ((h.sum ts).mp he e hm) t ht
  | _ => simpa [Expr.terms] using he

theorem collectTerms (h : Termwise H) {ts : List (Expr α)} (hts : ∀ t ∈ ts, H t) :
    ∀ p ∈ collectTerms ts, ∀ c, H (scale c p.1) :=
  forall_mem_collectTerms (P := fun e => ∀ c, H (scale c e)) fun t ht _ => h.rescale (hts t ht)

theorem mkSum (h : Termwise H) {es : List (Expr α)} (hes : ∀ e ∈ es, H e) : H (mkSum es) := by
  have terms : ∀ t ∈ termsList es, H t := h.terms ((h.sum es).mpr hes)
  have all : ∀ e ∈ sort (summands es), H e := by
    intro e he
    rcases List.mem_append.mp ((sortBy_perm _ _).mem_iff.mp he) with he | he
    · obtain ⟨p, hp, rfl⟩ := List.mem_map.mp he
      exact h.collectTerms terms p (List.mem_filter.mp hp).1 _
    · split at he
      · exact absurd he List.not_mem_nil
      · rw [List.mem_singleton.mp he]; exact h.mkNum _
  rw [mkSum_eq]
  unfold ofTerms
  split
  · exact h.num 0
  · next e hs => rw [hs] at all; exact all e List.mem_cons_self
  · exact (h.sum _).mpr all

end Termwise

namespace Hereditary

variable [Scalar α] {strict : Prop} {H : Expr α → Prop}

theorem mkNum (h : Hereditary strict H) (v : α) : H (mkNum v) := h.num _

theorem ofFactors (h : Hereditary strict H) {fs : List (Expr α)} :
    H (ofFactors fs) ↔ ∀ f ∈ fs, H f := by
  unfold Expr.ofFactors
  split
  · rw [List.forall_mem_singleton]
  · exact h.product _

theorem splitCoefficient (h : Hereditary strict H) {e : Expr α} (he : H e) :
    H e.splitCoefficient.2 := by
  unfold Expr.splitCoefficient
  split
  · exact h.ofFactors.mpr fun f hf => (h.product _).mp he f (List.mem_cons_of_mem _ hf)
  · exact h.num 1
  · exact he

theorem scale (h : Hereditary strict H) (c : α) {e : Expr α} : H (scale c e) ↔ H e := by
  unfold Expr.scale
  split
  · exact Iff.rfl
  split
  · exact iff_of_true (h.mkNum _) (h.num _)
  · rw [h.product, h.product, List.forall_mem_cons, and_iff_right (h.mkNum c)]
  · rw [h.product, List.forall_mem_cons, List.forall_mem_singleton, and_iff_right (h.mkNum c)]

theorem termwise (h : Hereditary strict H) : Termwise H where
  num := h.num
  sum := h.sum
  rescale he c := (h.scale c).mpr (h.splitCoefficient he)

theorem factors (h : Hereditary strict H) {e : Expr α} (he : H e) : ∀ f ∈ e.factors, H f := by
  induction e with
  | product fs ih =>
    rw [Expr.factors, factorsList_eq_flatMap]
    intro f hf
    obtain ⟨e, hm, hf⟩ := List.mem_flatMap.mp hf
    exact ih e hm ((h.product fs).mp he e hm) f hf
  | _ => simpa [Expr.factors] using he

theorem topFactors (h : Hereditary strict H) {e : Expr α} (he : H e) : ∀ f ∈ e.topFactors, H f := by
  cases e with
  | product fs => exact (h.product fs).mp he
  | _ => simpa [Expr.topFactors] using he

theorem assemble (h : Hereditary strict H) (c : α) {fs : List (Expr α)} (hfs : ∀ f ∈ fs, H f) :
    H (assemble c fs) := by
  have sorted : ∀ f ∈ sort fs, H f := fun f hf => hfs f ((sortBy_perm _ fs).mem_iff.mp hf)
  rw [assemble_eq]
  split
  · exact h.num 0
  have all : ∀ f ∈ (if Scalar.isOne c then sort fs else Expr.mkNum c :: sort fs), H f := by
    split
    · exact sorted
    · exact List.forall_mem_cons.mpr ⟨h.mkNum c, sorted⟩
  unfold joinFactors
  split
  · exact h.num 1
  · next e he => rw [he] at all; exact all e List.mem_cons_self
  · exact (h.product _).mpr all

/-! ## Functions and conditions -/

theorem mkCall (h : Hereditary strict H) {f : Builtin} {args : List (Expr α)} (hf : f ≠ .pow)
    (ha : H (.call f args)) : H (mkCall f args) := by
  unfold Expr.mkCall
  split
  · exact absurd rfl hf
  split
  · exact h.mkNum _
  · exact ha

theorem mkCompare (h : Hereditary strict H) {c : Comparison} {a b : Expr α}
    (hc : H (.compare c a b)) : H (mkCompare c a b) := by
  unfold Expr.mkCompare
  split
  · exact h.mkNum _
  · exact hc

theorem mkSelect {c a b : Expr α} (hs : H (.select c a b)) (ha : H a) (hb : H b) :
    H (mkSelect c a b) := by
  unfold Expr.mkSelect
  split
  · split
    · exact hb
    · exact ha
  · split
    · exact ha
    · exact hs

/-! ## Sums, products and powers -/

variable [Std.LawfulEqCmp (Scalar.order (α := α))]

theorem mkSum (h : Hereditary strict H) {es : List (Expr α)} (hes : ∀ e ∈ es, H e) :
    H (mkSum es) := h.termwise.mkSum hes

/-- The exponent may stand in a power that has the property. -/
def Exponent (strict : Prop) (H : Expr α → Prop) (e : Expr α) : Prop :=
  H e ∧ (strict → IsIntegral e)

variable [IntegralExponents α strict]

omit [Std.LawfulEqCmp (Scalar.order (α := α))] in
theorem basePower (h : Hereditary strict H) {f : Expr α} (hf : H f) :
    H f.basePower.1 ∧ Exponent strict H f.basePower.2 := by
  cases f with
  | power b e => exact (h.power b e).mp hf
  | _ => exact ⟨hf, h.num 1, fun strict => ⟨1, rfl, IntegralExponents.one strict⟩⟩

theorem collectFactors (h : Hereditary strict H) {fs : List (Expr α)} (hfs : ∀ f ∈ fs, H f) :
    ∀ g ∈ collectFactors fs, H g.1 ∧ ∀ e ∈ g.2, Exponent strict H e :=
  forall_mem_collectFactors fun f hf _ => h.basePower (hfs f hf)

/-- Exponents of one base are added up. -/
theorem exponent_mkSum (h : Hereditary strict H) {es : List (Expr α)}
    (hes : ∀ e ∈ es, Exponent strict H e) : Exponent strict H (Expr.mkSum es) := by
  refine ⟨h.mkSum fun e he => (hes e he).1, fun strict => ?_⟩
  exact IntegralExponents.mkSum strict fun e he => (hes e he).2 strict

theorem mkPow_mkProduct (h : Hereditary strict H) :
    (∀ b, H b → ∀ e, Exponent strict H e → H (mkPow b e)) ∧
      ∀ es, (∀ e ∈ es, H e) → H (mkProduct es) := by
  apply rank_induction
  · intro b power product hb e he
    have plain : H (.power b e) := (h.power b e).mpr ⟨hb, he⟩
    rw [mkPow_eq]
    split
    · next n =>
      split
      · exact h.mkNum _
      split
      · exact h.num 1
      split
      · exact hb
      split
      · next integral =>
        split
        · next inner exponent _ =>
          obtain ⟨hi, hx, strictly⟩ := (h.power inner exponent).mp hb
          refine power inner (baseRank_lt_power inner exponent) hi _ ⟨?_, fun strict => ?_⟩
          · exact product _ (factorRankList_lt_power inner exponent n) (by simp [hx, h.num])
          · exact IntegralExponents.mkProduct strict (strictly strict) ⟨n, rfl, integral⟩
        · next fs _ =>
          refine product _ (factorRankList_map_mkPow_lt fs (Expr.num n)) fun x hx => ?_
          obtain ⟨f, hf, rfl⟩ := List.mem_map.mp hx
          exact power f (baseRank_lt_product hf) ((h.product fs).mp hb f hf) _ he
        · exact plain
      · exact plain
    · split
      · split
        · exact h.num 1
        · exact plain
      · exact plain
  · intro es pow hes
    have factors : ∀ f ∈ factorsList es, H f := h.factors ((h.product es).mpr hes)
    have powers : ∀ f ∈ collectedPowers es, H f := by
      intro f hf
      obtain ⟨g, hg, hf⟩ := List.mem_flatMap.mp hf
      obtain ⟨hb, he⟩ := h.collectFactors factors g hg
      exact h.topFactors
        (pow g.1 (baseRank_of_mem_collectFactorsList hg) hb _ (h.exponent_mkSum he)) f hf
    rw [mkProduct_eq_assemble]
    dsimp only
    split
    · exact h.num 0
    · exact h.assemble _ fun f hf => powers f (List.mem_filter.mp hf).1

theorem mkPow (h : Hereditary strict H) {b e : Expr α} (hb : H b) (he : Exponent strict H e) :
    H (mkPow b e) := h.mkPow_mkProduct.1 b hb e he

theorem mkProduct (h : Hereditary strict H) {es : List (Expr α)} (hes : ∀ e ∈ es, H e) :
    H (mkProduct es) := h.mkPow_mkProduct.2 es hes

/-! ## Operators -/

omit [IntegralExponents α strict] in
theorem add (h : Hereditary strict H) {a b : Expr α} (ha : H a) (hb : H b) : H (a + b) := by
  show H (Expr.mkSum [a, b])
  exact h.mkSum (by simp [ha, hb])

theorem neg (h : Hereditary strict H) {a : Expr α} (ha : H a) : H (-a) := by
  show H (Expr.mkProduct [Expr.mkNum (-1), a])
  exact h.mkProduct (by simp [h.mkNum, ha])

theorem sub (h : Hereditary strict H) {a b : Expr α} (ha : H a) (hb : H b) : H (a - b) := by
  show H (Expr.mkSum [a, -b])
  exact h.mkSum (by simp [ha, h.neg hb])

theorem mul (h : Hereditary strict H) {a b : Expr α} (ha : H a) (hb : H b) : H (a * b) := by
  show H (Expr.mkProduct [a, b])
  exact h.mkProduct (by simp [ha, hb])

theorem div (h : Hereditary strict H) {a b : Expr α} (ha : H a) (hb : H b) : H (a / b) := by
  show H (Expr.mkProduct [a, .mkPow b (Expr.mkNum (-1))])
  refine h.mkProduct ?_
  have reciprocal : H (.mkPow b (Expr.mkNum (-1))) := h.mkPow hb ⟨h.mkNum _, IntegralExponents.minusOne⟩
  exact List.forall_mem_cons.mpr ⟨ha, List.forall_mem_singleton.mpr reciprocal⟩

end Hereditary

end AnalogCircuit.Expr
