import Mathlib.Algebra.CharZero.Infinite
import Mathlib.Algebra.Polynomial.FieldDivision
import Mathlib.Tactic.FieldSimp
import Mathlib.Tactic.LinearCombination
/-!
# Slopes of rational functions

Derivatives without limits: a function that is a quotient of polynomials on some domain, where the denominator does
not vanish, has as its slope what the quotient rule says. Over a field of characteristic zero the slope on an infinite
domain belongs to the function: that of an affine function is its coefficient, and a function whose slope is constant
everywhere is affine. This is all that elimination and iteration need to know about derivatives.
-/

namespace AnalogCircuit

open Polynomial

variable {α : Type} [Field α]

/-- On the domain the function `f` is a quotient of polynomials, and `g` is its formal derivative. -/
def HasSlope (D : Set α) (f g : α → α) : Prop :=
  ∃ p q : α[X], (∀ t ∈ D, q.eval t ≠ 0) ∧ (∀ t ∈ D, f t = p.eval t / q.eval t) ∧
    ∀ t ∈ D, g t = (derivative p * q - p * derivative q).eval t / q.eval t ^ 2

namespace HasSlope

variable {D : Set α} {f f' g g' : α → α}

/-- Only values on the domain matter. -/
theorem congr (h : HasSlope D g g') (hf : ∀ t ∈ D, f t = g t) (hf' : ∀ t ∈ D, f' t = g' t) : HasSlope D f f' := by
  obtain ⟨p, q, hq, hp, hs⟩ := h
  exact ⟨p, q, hq, fun t ht => (hf t ht).trans (hp t ht), fun t ht => (hf' t ht).trans (hs t ht)⟩

/-! ## Rules -/

theorem const (c : α) : HasSlope D (fun _ => c) fun _ => 0 :=
  ⟨C c, 1, by simp, by simp, by simp⟩

theorem id : HasSlope D (fun t : α => t) fun _ => 1 := ⟨X, 1, by simp, by simp, by simp⟩

theorem add (hf : HasSlope D f f') (hg : HasSlope D g g') :
    HasSlope D (fun t => f t + g t) fun t => f' t + g' t := by
  obtain ⟨p, q, hq, hp, hs⟩ := hf
  obtain ⟨a, b, hb, ha, hs'⟩ := hg
  refine ⟨p * b + a * q, q * b, fun t ht => ?_, fun t ht => ?_, fun t ht => ?_⟩
  · rw [eval_mul]; exact mul_ne_zero (hq t ht) (hb t ht)
  · have := hq t ht
    have := hb t ht
    show f t + g t = _
    rw [hp t ht, ha t ht, eval_add, eval_mul, eval_mul, eval_mul]
    field_simp
  · have := hq t ht
    have := hb t ht
    show f' t + g' t = _
    rw [hs t ht, hs' t ht]
    simp only [derivative_add, derivative_mul, eval_sub, eval_mul, eval_add]
    field_simp
    ring

theorem mul (hf : HasSlope D f f') (hg : HasSlope D g g') :
    HasSlope D (fun t => f t * g t) fun t => f' t * g t + f t * g' t := by
  obtain ⟨p, q, hq, hp, hs⟩ := hf
  obtain ⟨a, b, hb, ha, hs'⟩ := hg
  refine ⟨p * a, q * b, fun t ht => ?_, fun t ht => ?_, fun t ht => ?_⟩
  · rw [eval_mul]; exact mul_ne_zero (hq t ht) (hb t ht)
  · have := hq t ht
    have := hb t ht
    show f t * g t = _
    rw [hp t ht, ha t ht, eval_mul, eval_mul]
    field_simp
  · have := hq t ht
    have := hb t ht
    show f' t * g t + f t * g' t = _
    rw [hp t ht, ha t ht, hs t ht, hs' t ht]
    simp only [derivative_mul, eval_sub, eval_mul, eval_add]
    field_simp
    ring

theorem scale (c : α) (hf : HasSlope D f f') : HasSlope D (fun t => c * f t) fun t => c * f' t := by
  simpa using (const c).mul hf

theorem inv (hf : HasSlope D f f') (nonzero : ∀ t ∈ D, f t ≠ 0) :
    HasSlope D (fun t => (f t)⁻¹) fun t => -f' t / f t ^ 2 := by
  obtain ⟨p, q, hq, hp, hs⟩ := hf
  have hp0 : ∀ t ∈ D, p.eval t ≠ 0 := by
    intro t ht h
    exact nonzero t ht (by rw [hp t ht, h, zero_div])
  refine ⟨q, p, hp0, fun t ht => ?_, fun t ht => ?_⟩
  · show (f t)⁻¹ = _
    rw [hp t ht, inv_div]
  · have := hq t ht
    have := hp0 t ht
    show -f' t / f t ^ 2 = _
    rw [hp t ht, hs t ht]
    simp only [eval_sub, eval_mul]
    field_simp
    ring

theorem pow (hf : HasSlope D f f') (n : Nat) :
    HasSlope D (fun t => f t ^ n) fun t => n * f t ^ (n - 1 : Int) * f' t := by
  induction n with
  | zero => simpa using const (1 : α)
  | succ n ih =>
    have step := ih.mul hf
    simp only [pow_succ]
    convert step using 2 with t
    rcases n with _ | n
    · simp
    · have outer : ((n + 1 + 1 : Nat) : Int) - 1 = (n + 1 : Nat) := by push_cast; ring
      have inner : ((n + 1 : Nat) : Int) - 1 = n := by push_cast; ring
      rw [outer, inner, zpow_natCast, zpow_natCast, pow_succ]
      push_cast
      ring

theorem zpow (hf : HasSlope D f f') (n : Int) (nonzero : n < 0 → ∀ t ∈ D, f t ≠ 0) :
    HasSlope D (fun t => f t ^ n) fun t => n * f t ^ (n - 1) * f' t := by
  rcases n with n | n
  · simpa using hf.pow n
  · have hn := nonzero (Int.negSucc_lt_zero n)
    have step := (hf.pow (n + 1)).inv fun t ht => pow_ne_zero _ (hn t ht)
    have below : Int.negSucc n - 1 = -((n + 2 : Nat) : Int) := by omega
    have inner : ((n + 1 : Nat) : Int) - 1 = n := by push_cast; ring
    refine step.congr (fun t _ => zpow_negSucc (f t) n) fun t ht => ?_
    have := hn t ht
    rw [below, inner, zpow_neg, zpow_natCast, zpow_natCast, Int.cast_negSucc]
    field_simp
    ring

/-! ## Sums and products of lists -/

theorem sum {β : Type} {l : List β} {f f' : β → α → α} (h : ∀ x ∈ l, HasSlope D (f x) (f' x)) :
    HasSlope D (fun t => (l.map (f · t)).sum) fun t => (l.map (f' · t)).sum := by
  induction l with
  | nil => simpa using const (0 : α)
  | cons x l ih =>
    obtain ⟨hx, hl⟩ := List.forall_mem_cons.mp h
    simpa using hx.add (ih hl)

/-- The sum of the products in each of which one factor is replaced. -/
def leibniz {β : Type} (f f' : β → α) (l : List β) : α := (l.mapIdx fun i x => ((l.map f).set i (f' x)).prod).sum

theorem leibniz_nil {β : Type} (f f' : β → α) : leibniz f f' [] = 0 := rfl

theorem leibniz_cons {β : Type} (f f' : β → α) (x : β) (l : List β) :
    leibniz f f' (x :: l) = f' x * (l.map f).prod + f x * leibniz f f' l := by
  unfold leibniz
  rw [List.mapIdx_cons, List.sum_cons, List.map_cons, List.set_cons_zero, List.prod_cons]
  congr 1
  rw [List.mapIdx_eq_zipIdx_map, List.mapIdx_eq_zipIdx_map, ← List.sum_map_mul_left]
  simp only [List.set_cons_succ, List.prod_cons]

theorem leibniz_map {β γ : Type} (f f' : β → α) (g : γ → β) (l : List γ) :
    leibniz f f' (l.map g) = leibniz (fun x => f (g x)) (fun x => f' (g x)) l := by
  induction l with
  | nil => rfl
  | cons x l ih => rw [List.map_cons, leibniz_cons, leibniz_cons, ih, List.map_map]; rfl

theorem leibniz_eq_zero {β : Type} {f f' : β → α} {l : List β} (h : ∀ x ∈ l, f' x = 0) : leibniz f f' l = 0 := by
  induction l with
  | nil => rfl
  | cons x l ih =>
    obtain ⟨hx, hl⟩ := List.forall_mem_cons.mp h
    rw [leibniz_cons, hx, ih hl, zero_mul, mul_zero, add_zero]

/-- The sum is linear in what replaces the factors. -/
theorem leibniz_sum {β γ : Type} (f : β → α) (c : γ → α) (f' : γ → β → α) (us : List γ) (l : List β) :
    leibniz f (fun x => (us.map fun u => c u * f' u x).sum) l = (us.map fun u => c u * leibniz f (f' u) l).sum := by
  induction l with
  | nil => simp [leibniz_nil]
  | cons x l ih =>
    simp only [leibniz_cons, ih, mul_add, List.sum_map_add, ← List.sum_map_mul_left, ← List.sum_map_mul_right,
      mul_assoc, mul_left_comm (f x)]

/-- The derivative of a product replaces each factor in turn. -/
theorem prod {β : Type} {l : List β} {f f' : β → α → α} (h : ∀ x ∈ l, HasSlope D (f x) (f' x)) :
    HasSlope D (fun t => (l.map (f · t)).prod) fun t => leibniz (f · t) (f' · t) l := by
  induction l with
  | nil => simpa [leibniz_nil] using const (1 : α)
  | cons x l ih =>
    obtain ⟨hx, hl⟩ := List.forall_mem_cons.mp h
    simpa only [List.map_cons, List.prod_cons, leibniz_cons] using hx.mul (ih hl)

/-! ## Zeros -/

/-- Besides finitely many places a function vanishes nowhere on its domain, if it does not vanish at one. -/
theorem finite_zeros (h : HasSlope D f g) {t : α} (ht : t ∈ D) (nonzero : f t ≠ 0) :
    {s ∈ D | f s = 0}.Finite := by
  obtain ⟨p, q, hq, hp, -⟩ := h
  have hp0 : p ≠ 0 := by
    rintro rfl
    exact nonzero (by rw [hp t ht, eval_zero, zero_div])
  refine (finite_setOfPred_isRoot hp0).subset fun s hs => ?_
  obtain ⟨hs, zero⟩ := hs
  rw [hp s hs, div_eq_zero_iff] at zero
  exact zero.resolve_right (hq s hs)

/-! ## Constant slopes -/

/-- The slope of an affine function is its coefficient. -/
theorem eq_of_affine {a b : α} (h : HasSlope D f g) (infinite : D.Infinite) (affine : ∀ t ∈ D, f t = a + b * t)
    {t : α} (ht : t ∈ D) : g t = b := by
  obtain ⟨p, q, hq, hp, hs⟩ := h
  have same : p = (C a + C b * X) * q := by
    refine Polynomial.eq_of_infinite_eval_eq _ _ (infinite.mono fun t ht => ?_)
    have := affine t ht
    rw [hp t ht, div_eq_iff (hq t ht)] at this
    simpa using this
  have := hq t ht
  rw [hs t ht, same]
  simp only [derivative_mul, derivative_add, derivative_C, derivative_X, eval_sub, eval_mul, eval_add,
    eval_C, eval_X, eval_zero, eval_one]
  field_simp
  ring

variable [CharZero α]

/-- Two polynomials with the same logarithmic derivative are proportional, if one does not vanish everywhere. -/
theorem proportional {p q : α[X]} {a : α} (hq : q.eval a ≠ 0)
    (h : derivative p * q = p * derivative q) : p = C (p.eval a / q.eval a) * q := by
  -- the difference vanishes there, and more often than its own derivative allows
  set r := p - C (p.eval a / q.eval a) * q with hr
  have root : r.IsRoot a := by
    simp only [hr, IsRoot.def, eval_sub, eval_mul, eval_C]
    field_simp
    ring
  have log : derivative r * q = r * derivative q := by
    simp only [hr, derivative_sub, derivative_mul, derivative_C]
    linear_combination h
  by_contra hne
  have hr0 : r ≠ 0 := by
    intro h0
    exact hne (sub_eq_zero.mp (hr ▸ h0))
  have hq0 : q ≠ 0 := by
    rintro rfl
    exact hq (by simp)
  have positive : 0 < r.rootMultiplicity a := (rootMultiplicity_pos hr0).mpr root
  have hd0 : derivative r ≠ 0 := by
    intro h0
    have hc := eq_C_of_derivative_eq_zero h0
    rw [hc, IsRoot.def, eval_C] at root
    exact hr0 (by rw [hc, root, C_0])
  have left : (derivative r * q).rootMultiplicity a = r.rootMultiplicity a - 1 := by
    rw [rootMultiplicity_mul (mul_ne_zero hd0 hq0), derivative_rootMultiplicity_of_root root,
      rootMultiplicity_eq_zero (p := q) hq, add_zero]
  have right : r.rootMultiplicity a ≤ (derivative r * q).rootMultiplicity a := by
    rw [log, rootMultiplicity_mul (log ▸ mul_ne_zero hd0 hq0)]
    exact Nat.le_add_right _ _
  omega

/-- A function with a constant slope on an infinite domain is affine there. -/
theorem eq_add_of_const {b : α} (h : HasSlope D f fun _ => b) (infinite : D.Infinite) {s t : α} (hs : s ∈ D)
    (ht : t ∈ D) : f t = f s + b * (t - s) := by
  obtain ⟨p, q, hq, hp, slope⟩ := h
  have slope : derivative p * q - p * derivative q = C b * q ^ 2 := by
    refine Polynomial.eq_of_infinite_eval_eq _ _ (infinite.mono fun t ht => ?_)
    have := slope t ht
    rw [eq_div_iff (pow_ne_zero 2 (hq t ht))] at this
    simpa using this.symm
  have same := proportional (p := p - C b * X * q) (hq s hs) (by
    simp only [derivative_sub, derivative_mul, derivative_C, derivative_X]
    linear_combination slope)
  have at_t := congrArg (eval t) same
  have := hq t ht
  have := hq s hs
  simp only [eval_sub, eval_mul, eval_C, eval_X] at at_t
  rw [hp t ht, hp s hs]
  field_simp at at_t ⊢
  linear_combination at_t

/-- A function with a constant slope everywhere is affine. -/
theorem affine_of_const {b : α} (h : HasSlope Set.univ f fun _ => b) (t : α) : f t = f 0 + b * t := by
  rw [h.eq_add_of_const Set.infinite_univ (Set.mem_univ 0) (Set.mem_univ t), sub_zero]

end HasSlope

end AnalogCircuit
