import AnalogCircuit.Proofs.Interpretation
/-!
# The value of a canonical sum

Flattening, collecting by key and sorting change neither which divisors occur nor the value: the canonical
sum of regular expressions is regular, and its value is the sum of theirs.
-/

namespace AnalogCircuit.Expr

variable {α : Type}

/-! ## Entries of a list sorted by keys -/

/-- Adjusting the entry of a key either changes that entry or inserts one. -/
theorem adjust_eq [Scalar α] [Std.LawfulEqCmp (Scalar.order (α := α))] {β : Type} (d : β) (key : Expr α) (f : β → β)
    (l : List (Expr α × β)) :
    (∃ l₁ v l₂, l = l₁ ++ (key, v) :: l₂ ∧ adjust d key f l = l₁ ++ (key, f v) :: l₂) ∨
      ∃ l₁ l₂, l = l₁ ++ l₂ ∧ adjust d key f l = l₁ ++ (key, f d) :: l₂ := by
  induction l with
  | nil => exact .inr ⟨[], [], rfl, rfl⟩
  | cons p rest ih =>
    obtain ⟨k, v⟩ := p
    unfold adjust
    split
    · exact .inr ⟨[], (k, v) :: rest, rfl, rfl⟩
    · next h =>
      rw [order_eq_iff.mp h]
      exact .inl ⟨[], v, rest, rfl, rfl⟩
    · rcases ih with ⟨l₁, w, l₂, h, h'⟩ | ⟨l₁, l₂, h, h'⟩
      · exact .inl ⟨(k, v) :: l₁, w, l₂, by rw [h, List.cons_append], by rw [h', List.cons_append]⟩
      · exact .inr ⟨(k, v) :: l₁, l₂, by rw [h, List.cons_append], by rw [h', List.cons_append]⟩

/-! ## Terms -/

theorem termsList_eq_flatMap (es : List (Expr α)) : termsList es = es.flatMap terms := by
  induction es with
  | nil => rfl
  | cons e es ih => rw [termsList, ih, List.flatMap_cons]

theorem termsList_append (es es' : List (Expr α)) : termsList (es ++ es') = termsList es ++ termsList es' := by
  simp [termsList_eq_flatMap]

/-- Only numbers are constant. -/
theorem constant?_eq_some_iff {e : Expr α} {v : α} : e.constant? = some v ↔ e = num v := by
  cases e <;> simp [constant?]

/-- The constants can be put behind everything else. -/
theorem perm_constants (es : List (Expr α)) :
    es.Perm (es.filter (·.constant?.isNone) ++ (es.filterMap constant?).map num) := by
  induction es with
  | nil => exact List.Perm.refl _
  | cons e es ih =>
    cases constant : e.constant? with
    | some v =>
      obtain rfl := constant?_eq_some_iff.mp constant
      exact (ih.cons (num v)).trans List.perm_middle.symm
    | none =>
      rw [List.filter_cons, List.filterMap_cons_none constant, constant]
      exact ih.cons e

/-- Enters a term with its coefficient. -/
def collectTerm [Scalar α] (like : List (Expr α × α)) (t : Expr α) : List (Expr α × α) :=
  adjust 0 t.splitCoefficient.2 (t.splitCoefficient.1 + ·) like

theorem collectTerms_eq [Scalar α] (ts : List (Expr α)) :
    collectTerms ts = (ts.filter (·.constant?.isNone)).foldl collectTerm [] := by
  rw [List.foldl_filter, collectTerms]
  congr
  funext like t
  cases t <;> rfl

/-- What a sum adds up: the collected terms, and the constant unless it is zero. -/
def summands [Scalar α] (es : List (Expr α)) : List (Expr α) :=
  let constant := ((termsList es).filterMap constant?).foldl (· + ·) (0 : α)
  ((collectTerms (termsList es)).filter fun p => !Scalar.isZero p.2).map (fun p => scale p.2 p.1) ++
    if Scalar.isZero constant then [] else [mkNum constant]

/-- The sum of terms that are canonical together. -/
def ofTerms [Scalar α] : List (Expr α) → Expr α
  | [] => zero
  | [e] => e
  | es => sum es

theorem mkSum_eq [Scalar α] (es : List (Expr α)) : mkSum es = ofTerms (sort (summands es)) := by
  unfold mkSum summands
  dsimp only
  by_cases h : Scalar.isZero (((termsList es).filterMap constant?).foldl (· + ·) (0 : α))
  · rw [if_pos h, if_pos h, List.append_nil]
    rfl
  · rw [if_neg h, if_neg h]
    rfl

namespace LinearForm

variable [ExactScalar α] {L : LinearForm α}

/-- The terms of regular expressions are regular, and their values add up to those of the
expressions. -/
theorem terms_denote {e : Expr α} (h : L.Regular e) :
    (∀ t ∈ e.terms, L.Regular t) ∧ (e.terms.map L.value).sum = L.value e := by
  induction e with
  | sum ts ih =>
    have h := L.regular_sum.mp h
    have flat : ((ts.flatMap terms).map L.value).sum =
        (ts.map fun e => (e.terms.map L.value).sum).sum := by
      rw [List.map_flatMap, List.flatMap_def, List.sum_flatten, List.map_map]
      rfl
    rw [terms, termsList_eq_flatMap, L.value_sum h, flat]
    constructor
    · intro t ht
      obtain ⟨e, he, ht⟩ := List.mem_flatMap.mp ht
      exact (ih e he (h e he)).1 t ht
    · exact congrArg List.sum (List.map_congr_left fun e he => (ih e he (h e he)).2)
  | _ => simp [terms, h]

theorem termsList_denote {es : List (Expr α)} (h : ∀ e ∈ es, L.Regular e) :
    (∀ t ∈ termsList es, L.Regular t) ∧
      ((termsList es).map L.value).sum = (es.map L.value).sum := by
  obtain ⟨hr, hv⟩ := terms_denote (L.regular_sum.mpr h)
  rw [terms, L.value_sum h] at *
  exact ⟨hr, hv⟩

/-! ## Coefficients -/

theorem ofFactors_denotes {fs : List (Expr α)} (h : L.Regular (product fs)) :
    L.Denotes (ofFactors fs) (L.value (product fs)) := by
  unfold ofFactors
  split
  · next f =>
    have h := L.regular_lone.mp h
    exact ⟨h, (L.value_lone h).symm⟩
  · exact ⟨h, rfl⟩

/-- A term is its coefficient times the rest. -/
theorem splitCoefficient_denotes {e : Expr α} (h : L.Regular e) :
    L.Regular e.splitCoefficient.2 ∧
      L.value e = e.splitCoefficient.1 * L.value e.splitCoefficient.2 := by
  unfold splitCoefficient
  split
  · next c fs =>
    have h := L.regular_coefficient.mp h
    obtain ⟨hr, hv⟩ := ofFactors_denotes h
    exact ⟨hr, by rw [hv, L.value_coefficient h]⟩
  · next c => exact ⟨L.regular_num 1, L.value_num c⟩
  · exact ⟨h, (one_mul _).symm⟩

theorem scale_denotes (c : α) {e : Expr α} (h : L.Regular e) :
    L.Denotes (scale c e) (c * L.value e) := by
  unfold scale
  split
  · next hc => exact ⟨h, by rw [Scalar.isOne_iff.mp hc, one_mul]⟩
  · split
    · next v =>
      rw [mkNum_eq]
      exact ⟨L.regular_num _, by rw [L.value_num, L.value_num v, mul_assoc]⟩
    · next fs =>
      rw [mkNum_eq]
      exact ⟨L.regular_coefficient.mpr h, L.value_coefficient h⟩
    · have lone := L.regular_lone.mpr h
      rw [mkNum_eq]
      exact ⟨L.regular_coefficient.mpr lone, by rw [L.value_coefficient lone, L.value_lone h]⟩

/-! ## Sums -/

/-- What the entries of coefficients by term add up to. -/
def weight (L : LinearForm α) (l : List (Expr α × α)) : α :=
  (l.map fun p => p.2 * L.value p.1).sum

theorem adjust_weight (key : Expr α) (c : α) (l : List (Expr α × α)) :
    L.weight (adjust 0 key (c + ·) l) = c * L.value key + L.weight l := by
  unfold weight
  rcases adjust_eq 0 key (c + ·) l with ⟨l₁, v, l₂, h, h'⟩ | ⟨l₁, l₂, h, h'⟩
  all_goals
    rw [h', h]
    simp only [List.map_append, List.map_cons, List.sum_append, List.sum_cons]
    ring

/-- The collected terms make up what is not constant. -/
theorem collectTerms_denote {ts : List (Expr α)} (h : ∀ t ∈ ts, L.Regular t) :
    (∀ p ∈ collectTerms ts, L.Regular p.1) ∧
      L.weight (collectTerms ts) + (ts.filterMap constant?).sum * L.value one = (ts.map L.value).sum := by
  have run (ts : List (Expr α)) (acc : List (Expr α × α)) (h : ∀ t ∈ ts, L.Regular t)
      (hacc : ∀ p ∈ acc, L.Regular p.1) :
      (∀ p ∈ ts.foldl collectTerm acc, L.Regular p.1) ∧
        L.weight (ts.foldl collectTerm acc) = L.weight acc + (ts.map L.value).sum := by
    induction ts generalizing acc with
    | nil => exact ⟨hacc, (add_zero _).symm⟩
    | cons t ts ih =>
      obtain ⟨ht, hts⟩ := List.forall_mem_cons.mp h
      obtain ⟨hs, hw⟩ := splitCoefficient_denotes ht
      have step : ∀ p ∈ collectTerm acc t, L.Regular p.1 := by
        intro p hp
        rcases mem_adjust hp with e | ⟨q, hq, e⟩
        · rwa [e]
        · rw [← e]; exact hacc q hq
      obtain ⟨hr, hv⟩ := ih (collectTerm acc t) hts step
      refine ⟨hr, ?_⟩
      rw [List.foldl_cons, hv, collectTerm, adjust_weight, ← hw, List.map_cons, List.sum_cons]
      ring
  have constants : ((ts.filterMap constant?).map fun v => L.value (num v)).sum =
      (ts.filterMap constant?).sum * L.value one := by
    simp only [L.value_num]
    rw [List.sum_map_mul_right, List.map_id']
  rw [collectTerms_eq]
  obtain ⟨hr, hv⟩ := run (ts.filter (·.constant?.isNone)) []
    (fun t ht => h t (List.mem_filter.mp ht).1) (by simp)
  refine ⟨hr, ?_⟩
  rw [hv, ((perm_constants ts).map L.value).sum_eq, List.map_append, List.sum_append,
    List.map_map, ← constants]
  simp [weight, Function.comp_def]

/-- Entries with the coefficient zero contribute nothing. -/
theorem weight_filter (l : List (Expr α × α)) :
    L.weight (l.filter fun p => !Scalar.isZero p.2) = L.weight l := by
  induction l with
  | nil => rfl
  | cons p l ih =>
    rw [List.filter_cons]
    split
    · simp only [weight, List.map_cons, List.sum_cons] at *
      rw [ih]
    · next h =>
      have hz : p.2 = 0 := by simpa using h
      rw [ih, weight, weight, List.map_cons, List.sum_cons, hz, zero_mul, zero_add]

theorem summands_denote {es : List (Expr α)} (h : ∀ e ∈ es, L.Regular e) :
    (∀ e ∈ summands es, L.Regular e) ∧
      ((summands es).map L.value).sum = (es.map L.value).sum := by
  obtain ⟨terms, total⟩ := termsList_denote h
  obtain ⟨keys, collected⟩ := collectTerms_denote terms
  have scaled : ∀ p ∈ (collectTerms (termsList es)).filter fun p => !Scalar.isZero p.2,
      L.Denotes (scale p.2 p.1) (p.2 * L.value p.1) := fun p hp =>
    scale_denotes p.2 (keys p (List.mem_filter.mp hp).1)
  unfold summands
  dsimp only
  rw [← List.sum_eq_foldl, ← total, ← collected, ← weight_filter, List.map_append,
    List.sum_append, List.map_map]
  constructor
  · intro e he
    rcases List.mem_append.mp he with he | he
    · obtain ⟨p, hp, rfl⟩ := List.mem_map.mp he
      exact (scaled p hp).1
    · split at he
      · exact absurd he List.not_mem_nil
      · rw [List.mem_singleton.mp he, mkNum_eq]
        exact L.regular_num _
  · congr 1
    · exact congrArg List.sum (List.map_congr_left fun p hp => (scaled p hp).2)
    · split
      · next hz => rw [Scalar.isZero_iff.mp hz, zero_mul]; rfl
      · rw [mkNum_eq, List.map_singleton, List.sum_singleton, L.value_num]

theorem ofTerms_denotes {ts : List (Expr α)} (h : ∀ t ∈ ts, L.Regular t) :
    L.Denotes (ofTerms ts) (ts.map L.value).sum := by
  unfold ofTerms
  split
  · exact ⟨L.regular_num 0, by rw [zero, L.value_num, zero_mul]; rfl⟩
  · next e =>
    refine ⟨h e List.mem_cons_self, ?_⟩
    rw [List.map_singleton, List.sum_singleton]
  · exact ⟨L.regular_sum.mpr h, L.value_sum h⟩

/-- The canonical sum of regular expressions is regular and adds up their values. -/
theorem mkSum_denotes {es : List (Expr α)} (h : ∀ e ∈ es, L.Regular e) :
    L.Denotes (mkSum es) (es.map L.value).sum := by
  obtain ⟨hr, hv⟩ := summands_denote h
  have perm : (sort (summands es)).Perm (summands es) := sortBy_perm _ _
  rw [mkSum_eq, ← hv, ← (perm.map L.value).sum_eq]
  exact ofTerms_denotes fun e he => hr e (perm.mem_iff.mp he)

end LinearForm

/-- The canonical sum of regular expressions is regular and adds up their values. -/
theorem Interpretation.mkSum_denotes [ExactScalar α] {M : Interpretation α} {es : List (Expr α)}
    (h : ∀ e ∈ es, M.Regular e) : M.Denotes (mkSum es) (es.map M.value).sum := M.linearForm.mkSum_denotes h

/-- The canonical sum of regular expressions is regular and adds up their values. -/
theorem mkSum_denotes [ExactScalar α] {ℓ : Symbol → Option α} {es : List (Expr α)} (h : ∀ e ∈ es, Regular ℓ e) :
    Denotes ℓ (mkSum es) (es.map (value ℓ)).sum := (evaluation ℓ).mkSum_denotes h

end AnalogCircuit.Expr
