import AnalogCircuit.Proofs.Affine
/-!
# Elimination is an equivalence

What is known while unknowns are eliminated: every row that is left is affine, and the rows at the start vanish
exactly when the rows that are left vanish and every eliminated unknown has its value. One step keeps this, for
it takes a multiple of the pivot row from every other row, and so does the whole elimination.
-/

namespace AnalogCircuit

variable {α : Type}

namespace Expr

/-! ## Polynomials in the unknowns -/

mutual

/-- Sums, products and natural powers of symbols and of whatever mentions no unknown; so a negative power has a
base without unknowns. -/
def isPolynomial [Scalar α] (unknown : Symbol → Bool) : Expr α → Bool
  | num _ | sym _ => true
  | sum ts | product ts => isPolynomialList unknown ts
  | power b (num n) =>
    Scalar.isIntegral n && isPolynomial unknown b && 0 ≤ Scalar.toInt n || !b.dependsOn unknown
  | e => !e.dependsOn unknown

/-- Every expression of a list is polynomial in the unknowns. -/
def isPolynomialList [Scalar α] (unknown : Symbol → Bool) : List (Expr α) → Bool
  | [] => true
  | e :: es => isPolynomial unknown e && isPolynomialList unknown es

end

theorem isPolynomialList_iff [Scalar α] {U : Symbol → Bool} {es : List (Expr α)} :
    isPolynomialList U es = true ↔ ∀ e ∈ es, isPolynomial U e = true := by
  induction es with
  | nil => simp [isPolynomialList]
  | cons e es ih => simp [isPolynomialList, ih]

section

variable [ExactScalar α] {U : Symbol → Bool} {v w : Symbol → α}

theorem isArithmetic_of_isPolynomial {e : Expr α} (h : isPolynomial U e = true) :
    isArithmetic U e = true := by
  induction e with
  | num _ | sym _ => simp only [isArithmetic]
  | sum ts ih | product ts ih =>
    rw [isArithmetic]
    exact isArithmeticList_iff.mpr fun t ht => ih t ht (isPolynomialList_iff.mp h t ht)
  | power b e hb _ =>
    cases e with
    | num n =>
      rw [isPolynomial, Bool.or_eq_true, Bool.and_eq_true, Bool.and_eq_true] at h
      rw [isArithmetic, isArithmetic, Bool.and_true]
      rcases h with h | h
      · exact hb h.1.2
      · exact isArithmetic_of_dependsOn (by simpa using h)
    | _ => exact isArithmetic_of_dependsOn (by simpa [isPolynomial] using h)
  | _ => simpa [isPolynomial, isArithmetic] using h

/-- Whether a polynomial is regular does not depend on the unknowns. -/
theorem regular_of_isPolynomial (hw : Agrees U v w) {e : Expr α} (h : isPolynomial U e = true)
    (regular : Regular (total v) e) : Regular (total w) e := by
  have free {e : Expr α} (h : e.dependsOn U = false) (regular : Regular (total v) e) :
      Regular (total w) e :=
    (regular_congr (fun s hs => congrArg some (hw s hs).symm) h).mp regular
  induction e with
  | num _ => exact regular_num _
  | sym s => rw [Regular]; rfl
  | sum ts ih =>
    exact regular_sum.mpr fun t ht =>
      ih t ht (isPolynomialList_iff.mp h t ht) (regular_sum.mp regular t ht)
  | product fs ih =>
    exact regular_product.mpr fun f hf =>
      ih f hf (isPolynomialList_iff.mp h f hf) (regular_product.mp regular f hf)
  | power b e hb _ =>
    obtain ⟨n, rfl, base, hn, nonzero⟩ := regular_power.mp regular
    rw [isPolynomial, Bool.or_eq_true, Bool.and_eq_true, Bool.and_eq_true] at h
    rcases h with h | h
    · refine regular_power.mpr ⟨n, rfl, hb h.1.2 base, hn, fun negative => ?_⟩
      have := of_decide_eq_true h.2
      omega
    · exact free (Bool.or_eq_false_iff.mpr ⟨by simpa using h, rfl⟩) regular
  | call _ _ _ | apply _ _ _ | compare _ _ _ _ _ | select _ _ _ _ _ _ | derivative _ _ _
  | integral _ _ _ => exact free (by simpa [isPolynomial] using h) regular

end

end Expr

namespace Partition

open Expr

/-! ## The course of an elimination -/

/-- The unknowns in which some residual is not linear. -/
def nonlinear [Scalar α] (unknowns : List Symbol) (residuals : List (Expr α)) : List Symbol :=
  residuals.flatMap (nonlinearIn unknowns)

/-- The unknowns that are to be eliminated. -/
def linear [Scalar α] (unknowns : List Symbol) (residuals : List (Expr α)) : List Symbol :=
  unknowns.filter fun u => !(nonlinear unknowns residuals).contains u

/-- An elimination begins with the linear rows. -/
def start [Scalar α] (unknowns : List Symbol) (residuals : List (Expr α)) : Elimination α :=
  ⟨residuals.filter fun r => (nonlinearIn unknowns r).isEmpty, [], []⟩

/-- The rows that are not linear in all unknowns. -/
def curved [Scalar α] (unknowns : List Symbol) (residuals : List (Expr α)) : List (Expr α) :=
  residuals.filter fun r => !(nonlinearIn unknowns r).isEmpty

/-- The elimination of all unknowns that can be eliminated. -/
def eliminated [Scalar α] (unknowns : List Symbol) (residuals : List (Expr α))
    (nominal : Symbol → Option α) : Elimination α :=
  (linear unknowns residuals).foldl (Elimination.step nominal) (start unknowns residuals)

/-- An expression with the values of eliminated unknowns put in, in the order of elimination. -/
def putIn [Scalar α] (as : List (Assignment α)) (r : Expr α) : Expr α :=
  as.foldl (fun r a => replaceIn a.unknown a.value r) r

/-- The coefficients by which an elimination divides. -/
def Elimination.pivots [Scalar α] (nominal : Symbol → Option α) :
    Elimination α → List Symbol → List (Expr α)
  | _, [] => []
  | e, u :: us =>
    match pivot? nominal u e.rows with
    | none => (e.step nominal u).pivots nominal us
    | some (_, row) => row.diff u :: (e.step nominal u).pivots nominal us

/-- The pivot coefficients of a partition. -/
def pivotCoefficients [Scalar α] (unknowns : List Symbol) (residuals : List (Expr α))
    (nominal : Symbol → Option α) : List (Expr α) :=
  (start unknowns residuals).pivots nominal (linear unknowns residuals)

/-- The partition of as many residuals as there are unknowns. -/
theorem ofResiduals_eq [Scalar α] {unknowns : List Symbol} {residuals : List (Expr α)}
    (size : residuals.length = unknowns.length) (nominal : Symbol → Option α) :
    ofResiduals unknowns residuals nominal = (do
      let e := eliminated unknowns residuals nominal
      e.rows.forM (requireUnknown unknowns)
      let rest := (curved unknowns residuals ++ e.rows).map (putIn e.eliminated)
      let iterated := unknowns.filter fun u =>
        (nonlinear unknowns residuals).contains u || e.left.contains u
      if rest.length ≠ iterated.length then
        throw (.singularSystem
          s!"{rest.length} residual equations for {iterated.length} iterated unknowns")
      return ⟨e.eliminated.reverse, iterated, rest⟩) := by
  have flat : (residuals.map fun r => (r, nonlinearIn unknowns r)).flatMap (·.2) =
      nonlinear unknowns residuals := by
    rw [List.flatMap_map]; rfl
  have linearRows : ((residuals.map fun r => (r, nonlinearIn unknowns r)).filter
      (·.2.isEmpty)).map (·.1) = residuals.filter fun r => (nonlinearIn unknowns r).isEmpty := by
    rw [List.filter_map, List.map_map]
    exact List.map_id _
  have curvedRows : ((residuals.map fun r => (r, nonlinearIn unknowns r)).filter
      (!·.2.isEmpty)).map (·.1) = curved unknowns residuals := by
    rw [List.filter_map, List.map_map]
    exact List.map_id _
  unfold ofResiduals
  simp only [List.partition_eq_filter_filter, Function.comp_def, flat, linearRows, curvedRows]
  rw [if_neg (not_not.mpr size)]
  rfl

/-- What a partition consists of, if there is one. -/
theorem ofResiduals_eq_ok [Scalar α] {unknowns : List Symbol} {residuals : List (Expr α)}
    {nominal : Symbol → Option α} {p : Partition α}
    (h : ofResiduals unknowns residuals nominal = .ok p) :
    p.assignments = (eliminated unknowns residuals nominal).eliminated.reverse ∧
      p.residuals = (curved unknowns residuals ++ (eliminated unknowns residuals nominal).rows).map
        (putIn (eliminated unknowns residuals nominal).eliminated) ∧
      p.iterated = unknowns.filter (fun u => (nonlinear unknowns residuals).contains u ||
        (eliminated unknowns residuals nominal).left.contains u) ∧
      p.residuals.length = p.iterated.length := by
  by_cases size : residuals.length = unknowns.length
  case neg =>
    unfold ofResiduals at h
    rw [if_pos size] at h
    cases h
  rw [ofResiduals_eq size] at h
  cases checked : (eliminated unknowns residuals nominal).rows.forM (requireUnknown unknowns) with
  | error e =>
    simp only [checked] at h
    cases h
  | ok _ =>
    simp only [checked, bind, Except.bind, pure, Except.pure] at h
    split at h
    · cases h
    · next same =>
      cases h
      exact ⟨rfl, rfl, rfl, by simpa using same⟩

/-! ## Pivots -/

/-- The better of the best row so far and the next one. -/
def better [Scalar α] (nominal : Symbol → Option α) (u : Symbol) (best : Option (α × Nat × Expr α))
    (row : Expr α × Nat) : Option (α × Nat × Expr α) :=
  match score? nominal u row.1, best with
  | some s, some (t, kept) => if Scalar.lt t s then some (s, row.2, row.1) else some (t, kept)
  | some s, none => some (s, row.2, row.1)
  | none, best => best

theorem pivot?_eq [Scalar α] (nominal : Symbol → Option α) (u : Symbol) (rows : List (Expr α)) :
    pivot? nominal u rows = (rows.zipIdx.foldl (better nominal u) none).map (·.2) := rfl

section

variable [Scalar α] {nominal : Symbol → Option α} {u : Symbol}

theorem mem_better {best : Option (α × Nat × Expr α)} {row : Expr α × Nat} {b : α × Nat × Expr α}
    (h : b ∈ better nominal u best row) :
    b ∈ best ∨ b.2 = (row.2, row.1) ∧ score? nominal u row.1 ≠ none := by
  unfold better at h
  split at h
  · next score =>
    split at h
    · cases h
      exact .inr ⟨rfl, by rw [score]; exact Option.some_ne_none _⟩
    · exact .inl h
  · next score =>
    cases h
    exact .inr ⟨rfl, by rw [score]; exact Option.some_ne_none _⟩
  · exact .inl h

theorem better_eq_none {best : Option (α × Nat × Expr α)} {row : Expr α × Nat}
    (h : better nominal u best row = none) : best = none ∧ score? nominal u row.1 = none := by
  unfold better at h
  split at h
  · split at h <;> cases h
  · cases h
  · next score => exact ⟨h, score⟩

/-- A pivot is the row at its place, and has a score. -/
theorem spec_of_pivot? {rows : List (Expr α)} {i : Nat} {row : Expr α}
    (h : pivot? nominal u rows = some (i, row)) : rows[i]? = some row ∧ score? nominal u row ≠ none := by
  -- the best row found so far is the one at its place
  have kept : ∀ (l : List (Expr α × Nat)) (best : Option (α × Nat × Expr α)),
      (∀ p ∈ l, rows[p.2]? = some p.1) →
      (∀ b ∈ best, rows[b.2.1]? = some b.2.2 ∧ score? nominal u b.2.2 ≠ none) →
      ∀ b ∈ l.foldl (better nominal u) best,
        rows[b.2.1]? = some b.2.2 ∧ score? nominal u b.2.2 ≠ none := by
    intro l
    induction l with
    | nil => exact fun best _ hb => hb
    | cons p l ih =>
      intro best hl hb
      obtain ⟨hp, hl⟩ := List.forall_mem_cons.mp hl
      refine ih _ hl fun b mem => ?_
      rcases mem_better mem with old | ⟨place, score⟩
      · exact hb b old
      · rw [place]
        exact ⟨hp, score⟩
  rw [pivot?_eq] at h
  obtain ⟨b, found, place⟩ := Option.map_eq_some_iff.mp h
  have best := kept rows.zipIdx none (fun p hp => List.mk_mem_zipIdx_iff_getElem?.mp hp) (by simp) b found
  rwa [place] at best

/-- Where no pivot is found, no row has a score. -/
theorem score?_eq_none_of_pivot? {rows : List (Expr α)} (h : pivot? nominal u rows = none) :
    ∀ r ∈ rows, score? nominal u r = none := by
  have all : ∀ (l : List (Expr α × Nat)) (best : Option (α × Nat × Expr α)),
      l.foldl (better nominal u) best = none → best = none ∧ ∀ p ∈ l, score? nominal u p.1 = none := by
    intro l
    induction l with
    | nil => exact fun best h => ⟨h, fun _ h => absurd h List.not_mem_nil⟩
    | cons p l ih =>
      intro best h
      obtain ⟨none, others⟩ := ih _ h
      obtain ⟨none, score⟩ := better_eq_none none
      exact ⟨none, List.forall_mem_cons.mpr ⟨score, others⟩⟩
  rw [pivot?_eq, Option.map_eq_none_iff] at h
  intro r hr
  obtain ⟨i, hi, rfl⟩ := List.getElem_of_mem hr
  exact (all _ _ h).2 (rows[i], i) (List.mk_mem_zipIdx_iff_getElem?.mpr (List.getElem?_eq_getElem hi))

end

/-- A pivot mentions the unknown for which it is solved. -/
theorem contains_of_pivot? [Scalar α] {nominal : Symbol → Option α} {u : Symbol}
    {rows : List (Expr α)} {i : Nat} {row : Expr α} (h : pivot? nominal u rows = some (i, row)) :
    row.contains u = true := by
  by_contra absent
  refine (spec_of_pivot? h).2 ?_
  unfold score?
  rw [if_neg absent]

/-- A pivot is taken out of the rows. -/
theorem perm_of_pivot? [Scalar α] {nominal : Symbol → Option α} {u : Symbol}
    {rows : List (Expr α)} {i : Nat} {row : Expr α} (h : pivot? nominal u rows = some (i, row)) :
    (row :: rows.eraseIdx i).Perm rows := by
  obtain ⟨hi, rfl⟩ := List.getElem?_eq_some_iff.mp (spec_of_pivot? h).1
  exact List.getElem_cons_eraseIdx_perm hi

/-- What holds of all rows holds of the pivot and of the others. -/
theorem forall_rows_iff [Scalar α] {nominal : Symbol → Option α} {u : Symbol} {rows : List (Expr α)} {i : Nat}
    {row : Expr α} (h : pivot? nominal u rows = some (i, row)) {P : Expr α → Prop} :
    (∀ r ∈ rows, P r) ↔ P row ∧ ∀ r ∈ rows.eraseIdx i, P r := by
  rw [← List.forall_mem_cons (p := P)]
  exact forall_congr' fun r => by rw [(perm_of_pivot? h).mem_iff]

/-! ## The invariant -/

section

variable [ExactScalar α] {U : Symbol → Bool} {v : Symbol → α} {rows₀ : List (Expr α)}
  {nominal : Symbol → Option α} {e : Elimination α} {u : Symbol}

/-- The rows that are left are affine, and together with the assignments they say what the rows at the start
say. -/
structure Reduced (unknown : Symbol → Bool) (v : Symbol → α) (rows₀ : List (Expr α))
    (e : Elimination α) : Prop where
  affine : ∀ r ∈ e.rows, ∃ c, Affine unknown v r c
  assigned : ∀ a ∈ e.eliminated, Regular (total v) a.value
  equivalent : (∀ r ∈ rows₀, value (total v) r = 0) ↔
    (∀ r ∈ e.rows, value (total v) r = 0) ∧
      ∀ a ∈ e.eliminated, v a.unknown = value (total v) a.value

/-- Eliminating an unknown keeps the invariant, if the pivot is not zero. -/
theorem Reduced.step (h : Reduced U v rows₀ e) (hu : U u = true)
    (nonzero : ∀ i row, pivot? nominal u e.rows = some (i, row) →
      evaluate (total v) (row.diff u) ≠ some 0) :
    Reduced U v rows₀ (e.step nominal u) := by
  unfold Elimination.step
  split
  · exact ⟨h.affine, h.assigned, h.equivalent⟩
  next i row found =>
  have refl := Agrees.refl U v
  obtain ⟨⟨d, hrow⟩, others⟩ := (forall_rows_iff found).mp h.affine
  have pivot : d u ≠ 0 := by
    obtain ⟨regular, coefficient⟩ := hrow.diff hu refl
    intro hz
    exact nonzero i row found (by rw [evaluate_eq regular, coefficient, hz])
  obtain ⟨regular, solution⟩ := hrow.solveFor_denotes hu pivot refl
  refine ⟨?_, ?_, ?_⟩
  · intro x hx
    obtain ⟨r, hr, rfl⟩ := List.mem_map.mp hx
    obtain ⟨c, hc⟩ := others r hr
    exact ⟨_, hc.replaceIn_affine hrow hu pivot⟩
  · intro a ha
    rcases List.mem_append.mp ha with ha | ha
    · exact h.assigned a ha
    · rw [List.mem_singleton.mp ha]; exact regular
  · -- the pivot row vanishes exactly at its solution, and there the other rows are unchanged
    have pivot_row : value (total v) row = 0 ↔ v u = value (total v) (solveFor u row) := by
      rw [solution, eq_sub_iff_add_eq, add_eq_left, div_eq_zero_iff, or_iff_left pivot]
    have other_rows (hz : value (total v) row = 0) : ∀ r ∈ e.rows.eraseIdx i,
        value (total v) (replaceIn u (solveFor u row) r) = value (total v) r := by
      intro r hr
      obtain ⟨c, hc⟩ := others r hr
      rw [(hc.replaceIn_denotes hrow hu pivot refl).2, hz, mul_zero, sub_zero]
    rw [h.equivalent, forall_rows_iff found, List.forall_mem_append, List.forall_mem_singleton, List.forall_mem_map,
      ← pivot_row]
    constructor
    · rintro ⟨⟨hz, hr⟩, ha⟩
      exact ⟨fun r hm => (other_rows hz r hm).trans (hr r hm), ha, hz⟩
    · rintro ⟨hr, ha, hz⟩
      exact ⟨⟨hz, fun r hm => (other_rows hz r hm).symm.trans (hr r hm)⟩, ha⟩

/-- So does the elimination of several unknowns. -/
theorem Reduced.foldl (h : Reduced U v rows₀ e) {us : List Symbol} (hus : ∀ u ∈ us, U u = true)
    (nonzero : ∀ c ∈ e.pivots nominal us, evaluate (total v) c ≠ some 0) :
    Reduced U v rows₀ (us.foldl (Elimination.step nominal) e) := by
  induction us generalizing e with
  | nil => exact h
  | cons u us ih =>
    obtain ⟨hu, hus⟩ := List.forall_mem_cons.mp hus
    rw [Elimination.pivots] at nonzero
    refine ih (h.step hu fun i row found => ?_) hus fun c hc => ?_
    · rw [found] at nonzero
      exact nonzero _ List.mem_cons_self
    · cases found : pivot? nominal u e.rows with
      | none => rw [found] at nonzero; exact nonzero c hc
      | some p => rw [found] at nonzero; exact nonzero c (List.mem_cons_of_mem _ hc)

/-- At the start the rows are affine. -/
theorem reduced_start {unknowns : List Symbol} {residuals : List (Expr α)}
    (polynomial : ∀ r ∈ residuals, isPolynomial (unknowns.contains ·) r = true)
    (regular : ∀ r ∈ residuals, Regular (total v) r) :
    Reduced (unknowns.contains ·) v (start unknowns residuals).rows (start unknowns residuals) := by
  refine ⟨fun r hr => ?_, by simp [start], by simp [start]⟩
  obtain ⟨hr, linear⟩ := List.mem_filter.mp hr
  refine ⟨_, affine_of_dependsOn (isArithmetic_of_isPolynomial (polynomial r hr))
    (fun w hw => regular_of_isPolynomial hw (polynomial r hr) (regular r hr)) fun u hu occurs => ?_⟩
  have none := List.filter_eq_nil_iff.mp (List.isEmpty_iff.mp linear) u (List.contains_iff_mem.mp hu)
  rw [occurs, Bool.true_and, Bool.not_eq_true] at none
  exact none

/-! ## Putting values in -/

/-- Where every eliminated unknown has its value, putting the values in changes nothing. -/
theorem putIn_denotes {as : List (Assignment α)}
    (assigned : ∀ a ∈ as, Denotes (total v) a.value (v a.unknown)) {r : Expr α}
    (hr : Regular (total v) r) : Denotes (total v) (putIn as r) (value (total v) r) := by
  induction as generalizing r with
  | nil => exact hr.denotes
  | cons a as ih =>
    obtain ⟨ha, has⟩ := List.forall_mem_cons.mp assigned
    have step : Denotes (total v) (replaceIn a.unknown a.value r) (value (total v) r) := by
      unfold replaceIn
      split
      · have here : Regular (total (Function.update v a.unknown (v a.unknown))) r := by
          rwa [Function.update_eq_self]
        have replaced := replace_denotes ha here
        rwa [Function.update_eq_self] at replaced
      · exact hr.denotes
    rw [← step.2]
    exact ih has step.1

end

/-! ## The unknowns -/

/-- Every unknown is eliminated or left. -/
theorem perm_foldl_step [Scalar α] {nominal : Symbol → Option α} (us : List Symbol) (e : Elimination α) :
    let e' := us.foldl (Elimination.step nominal) e
    (e'.eliminated.map (·.unknown) ++ e'.left).Perm
      (e.eliminated.map (·.unknown) ++ e.left ++ us) := by
  induction us generalizing e with
  | nil => rw [List.append_nil]; exact List.Perm.refl _
  | cons u us ih =>
    refine (ih (e.step nominal u)).trans ?_
    have step : ((e.step nominal u).eliminated.map (·.unknown) ++ (e.step nominal u).left).Perm
        (e.eliminated.map (·.unknown) ++ e.left ++ [u]) := by
      unfold Elimination.step
      split
      · rw [← List.append_assoc]
      · simp only [List.map_append, List.map_singleton, List.append_assoc]
        exact (List.perm_append_comm).append_left _
    rw [List.append_cons]
    exact step.append_right us

/-- The eliminated and the iterated unknowns are all unknowns, each once. -/
theorem perm_unknowns [Scalar α] {nominal : Symbol → Option α} {unknowns : List Symbol}
    {residuals : List (Expr α)} {p : Partition α} (distinct : unknowns.Nodup)
    (h : ofResiduals unknowns residuals nominal = .ok p) :
    (p.assignments.map (·.unknown) ++ p.iterated).Perm unknowns := by
  obtain ⟨assignments, -, iterated, -⟩ := ofResiduals_eq_ok h
  have course := @perm_foldl_step _ _ nominal (linear unknowns residuals)
    (start unknowns residuals)
  change ((eliminated unknowns residuals nominal).eliminated.map (·.unknown) ++
    (eliminated unknowns residuals nominal).left).Perm (linear unknowns residuals) at course
  have each : (linear unknowns residuals).Nodup := distinct.filter _
  obtain ⟨assigned, left, apart⟩ := List.nodup_append.mp (course.nodup_iff.mpr each)
  have mem_course (u : Symbol) : u ∈ (eliminated unknowns residuals nominal).eliminated.map (·.unknown) ∨
      u ∈ (eliminated unknowns residuals nominal).left ↔
        u ∈ unknowns ∧ u ∉ nonlinear unknowns residuals := by
    rw [← List.mem_append, course.mem_iff, linear, List.mem_filter]
    simp
  rw [assignments, iterated, List.map_reverse]
  refine (((List.reverse_perm _).append_right _).trans ?_)
  refine (List.perm_ext_iff_of_nodup (List.nodup_append.mpr ⟨assigned, distinct.filter _, ?_⟩)
    distinct).mpr fun u => ?_
  · rintro u hu _ hi rfl
    obtain ⟨-, hi⟩ := List.mem_filter.mp hi
    rcases Bool.or_eq_true_iff.mp hi with hi | hi
    · exact ((mem_course u).mp (.inl hu)).2 (List.contains_iff_mem.mp hi)
    · exact apart u hu u (List.contains_iff_mem.mp hi) rfl
  · rw [List.mem_append, List.mem_filter, Bool.or_eq_true, List.contains_iff_mem,
      List.contains_iff_mem]
    constructor
    · rintro (hu | ⟨hu, -⟩)
      · exact ((mem_course u).mp (.inl hu)).1
      · exact hu
    · intro hu
      by_cases hn : u ∈ nonlinear unknowns residuals
      · exact .inr ⟨hu, .inl hn⟩
      · rcases (mem_course u).mpr ⟨hu, hn⟩ with h | h
        · exact .inl h
        · exact .inr ⟨hu, .inr h⟩

/-! ## Equivalence -/

/-- What holds of all residuals holds of the nonlinear ones and of the rows at the start. -/
theorem forall_residuals_iff [Scalar α] {unknowns : List Symbol} {residuals : List (Expr α)} {P : Expr α → Prop} :
    (∀ r ∈ residuals, P r) ↔ (∀ r ∈ curved unknowns residuals, P r) ∧ ∀ r ∈ (start unknowns residuals).rows, P r := by
  constructor
  · intro h
    exact ⟨fun r hr => h r (List.mem_filter.mp hr).1, fun r hr => h r (List.mem_filter.mp hr).1⟩
  · rintro ⟨hc, hl⟩ r hr
    by_cases empty : (nonlinearIn unknowns r).isEmpty = true
    · exact hl r (List.mem_filter.mpr ⟨hr, empty⟩)
    · exact hc r (List.mem_filter.mpr ⟨hr, by simpa using empty⟩)

/-- Where no pivot and no divisor is zero, the residuals vanish exactly when those that are left vanish and every
assigned unknown has its value. -/
theorem vanish_iff [ExactScalar α] {unknowns : List Symbol} {residuals : List (Expr α)}
    {nominal : Symbol → Option α} {p : Partition α}
    (polynomial : ∀ r ∈ residuals, isPolynomial (unknowns.contains ·) r = true)
    (found : ofResiduals unknowns residuals nominal = .ok p) (v : Symbol → α)
    (divisors : ∀ r ∈ residuals, Regular (total v) r)
    (pivots : ∀ c ∈ pivotCoefficients unknowns residuals nominal, evaluate (total v) c ≠ some 0) :
    (∀ r ∈ residuals, evaluate (total v) r = some 0) ↔
      (∀ r ∈ p.residuals, evaluate (total v) r = some 0) ∧
        ∀ a ∈ p.assignments, evaluate (total v) a.value = some (v a.unknown) := by
  obtain ⟨assignments, rest, -, -⟩ := ofResiduals_eq_ok found
  have reduced := (reduced_start polynomial divisors).foldl
    (fun u hu => List.contains_iff_mem.mpr (List.mem_filter.mp hu).1) pivots
  change Reduced _ v _ (eliminated unknowns residuals nominal) at reduced
  have zero_iff {r : Expr α} (hr : Regular (total v) r) :
      evaluate (total v) r = some 0 ↔ value (total v) r = 0 := by
    rw [evaluate_eq hr, Option.some_inj]
  have left : ∀ r ∈ curved unknowns residuals ++ (eliminated unknowns residuals nominal).rows,
      Regular (total v) r := by
    intro r hr
    rcases List.mem_append.mp hr with hr | hr
    · exact divisors r (List.mem_filter.mp hr).1
    · obtain ⟨c, hc⟩ := reduced.affine r hr
      exact hc.regular v (Agrees.refl _ v)
  -- at the assigned values the residuals that are left are those before the values were put in
  have same (assigned : ∀ a ∈ (eliminated unknowns residuals nominal).eliminated,
      v a.unknown = value (total v) a.value) :
      (∀ r ∈ p.residuals, evaluate (total v) r = some 0) ↔
        ∀ r ∈ curved unknowns residuals ++ (eliminated unknowns residuals nominal).rows,
          value (total v) r = 0 := by
    rw [rest, List.forall_mem_map]
    refine forall₂_congr fun r hr => ?_
    obtain ⟨regular, unchanged⟩ := putIn_denotes
      (fun a ha => ⟨reduced.assigned a ha, (assigned a ha).symm⟩) (left r hr)
    rw [zero_iff regular, unchanged]
  have values : (∀ a ∈ p.assignments, evaluate (total v) a.value = some (v a.unknown)) ↔
      ∀ a ∈ (eliminated unknowns residuals nominal).eliminated,
        v a.unknown = value (total v) a.value := by
    rw [assignments]
    simp only [List.mem_reverse]
    refine forall₂_congr fun a ha => ?_
    rw [evaluate_eq (reduced.assigned a ha), Option.some_inj, eq_comm]
  have rows : (∀ r ∈ residuals, evaluate (total v) r = some 0) ↔
      (∀ r ∈ curved unknowns residuals, value (total v) r = 0) ∧
        ∀ r ∈ (start unknowns residuals).rows, value (total v) r = 0 := by
    rw [← forall_residuals_iff]
    exact forall₂_congr fun r hr => zero_iff (divisors r hr)
  rw [rows, reduced.equivalent, values]
  constructor
  · rintro ⟨hc, hr, ha⟩
    exact ⟨(same ha).mpr (List.forall_mem_append.mpr ⟨hc, hr⟩), ha⟩
  · rintro ⟨hp, ha⟩
    obtain ⟨hc, hr⟩ := List.forall_mem_append.mp ((same ha).mp hp)
    exact ⟨hc, hr, ha⟩

/-- Elimination is an equivalence: where no pivot and no divisor is zero, the residuals vanish exactly when those
that are left vanish and every assigned unknown has its value. Each unknown is either assigned or iterated, and
there is a residual for every iterated one. -/
theorem ofResiduals_equivalent [ExactScalar α] {unknowns : List Symbol} {residuals : List (Expr α)}
    {nominal : Symbol → Option α} {p : Partition α} (distinct : unknowns.Nodup)
    (polynomial : ∀ r ∈ residuals, isPolynomial (unknowns.contains ·) r = true)
    (found : ofResiduals unknowns residuals nominal = .ok p) (v : Symbol → α)
    (divisors : ∀ r ∈ residuals, Regular (total v) r)
    (pivots : ∀ c ∈ pivotCoefficients unknowns residuals nominal, evaluate (total v) c ≠ some 0) :
    ((∀ r ∈ residuals, evaluate (total v) r = some 0) ↔
      (∀ r ∈ p.residuals, evaluate (total v) r = some 0) ∧
        ∀ a ∈ p.assignments, evaluate (total v) a.value = some (v a.unknown)) ∧
    (p.assignments.map (·.unknown) ++ p.iterated).Perm unknowns ∧
    p.residuals.length = p.iterated.length := by
  obtain ⟨-, -, -, size⟩ := ofResiduals_eq_ok found
  exact ⟨vanish_iff polynomial found v divisors pivots, perm_unknowns distinct found, size⟩

/-- A voltage divider with a load through which the square of the output flows. -/
def loadedDivider : List (Expr ℚ) :=
  let x := Expr.named "x"
  let y := Expr.named "y"
  let z := Expr.named "z"
  [(x - y) / .named "r" - z, x - .named "e", Expr.mkPow y (.mkNum 2) - z]

theorem ofResiduals_equivalent_loadedDivider :
    let unknowns := ["x", "y", "z"].map Symbol.named
    let v : Symbol → ℚ := fun s => if s.name = "e" then 6 else if s.name = "r" then 1 / 2 else 2
    ∃ p, ofResiduals unknowns loadedDivider (fun _ => some 1) = .ok p ∧
      ((∀ r ∈ loadedDivider, evaluate (total v) r = some 0) ↔
        (∀ r ∈ p.residuals, evaluate (total v) r = some 0) ∧
          ∀ a ∈ p.assignments, evaluate (total v) a.value = some (v a.unknown)) ∧
      (p.assignments.map (·.unknown) ++ p.iterated).Perm unknowns ∧
      p.residuals.length = p.iterated.length := by
  intro unknowns v
  have ok : (ofResiduals unknowns loadedDivider fun _ => some 1).toOption.isSome = true := by
    decide +kernel
  obtain ⟨p, hp⟩ : ∃ p, ofResiduals unknowns loadedDivider (fun _ => some 1) = .ok p := by
    cases h : ofResiduals unknowns loadedDivider fun _ => some 1 with
    | ok p => exact ⟨p, rfl⟩
    | error e => rw [h] at ok; cases ok
  exact ⟨p, hp, ofResiduals_equivalent (by decide +kernel) (by decide +kernel) hp v
    (by decide +kernel) (by decide +kernel)⟩

end Partition

end AnalogCircuit
