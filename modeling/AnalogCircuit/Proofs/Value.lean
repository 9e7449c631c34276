import AnalogCircuit.Proofs.Order
import AnalogCircuit.Expr.Evaluate
import AnalogCircuit.Expr.Traverse
/-!
# Regular expressions and their values

Rebuilding an expression in canonical form cancels factors and drops terms, so it keeps the value only
where no divisor vanishes. An expression is regular under a valuation when its powers are integral, no
base of a negative power is zero, and all that its value needs has a value. Regular expressions have
values, and those are computed node by node.
-/

namespace AnalogCircuit.Expr

variable {α : Type} [Scalar α]

/-- The value of an expression that has one. -/
def value (ℓ : Symbol → Option α) (e : Expr α) : α := (evaluate ℓ e).getD 0

mutual

/-- All that the value needs has a value, powers are integral and no divisor is zero. -/
def Regular (ℓ : Symbol → Option α) : Expr α → Prop
  | num _ => True
  | sym s => (ℓ s).isSome
  | sum ts | product ts => RegularList ℓ ts
  | power b (num n) =>
    Regular ℓ b ∧ Scalar.isIntegral n = true ∧
      (Scalar.toInt n < 0 → Scalar.isZero (value ℓ b) = false)
  | call f args => f ≠ .pow ∧ args.length = f.arity ∧ RegularList ℓ args
  | compare _ a b => Regular ℓ a ∧ Regular ℓ b
  | select c a b =>
    Regular ℓ c ∧ if Scalar.isZero (value ℓ c) then Regular ℓ b else Regular ℓ a
  | power _ _ | apply _ _ | derivative _ _ | integral _ _ => False

/-- Every expression of a list is regular. -/
def RegularList (ℓ : Symbol → Option α) : List (Expr α) → Prop
  | [] => True
  | e :: es => Regular ℓ e ∧ RegularList ℓ es

end

mutual

/-- Regularity can be checked wherever constants can be compared. -/
def decideRegular (ℓ : Symbol → Option α) : (e : Expr α) → Decidable (Regular ℓ e)
  | num _ => inferInstanceAs (Decidable True)
  | sym s => inferInstanceAs (Decidable ((ℓ s).isSome = true))
  | sum ts | product ts => decideRegularList ℓ ts
  | power b (num n) =>
    have := decideRegular ℓ b
    inferInstanceAs (Decidable (Regular ℓ b ∧ Scalar.isIntegral n = true ∧
      (Scalar.toInt n < 0 → Scalar.isZero (value ℓ b) = false)))
  | call f args =>
    have := decideRegularList ℓ args
    inferInstanceAs (Decidable (f ≠ .pow ∧ args.length = f.arity ∧ RegularList ℓ args))
  | compare _ a b =>
    have := decideRegular ℓ a
    have := decideRegular ℓ b
    inferInstanceAs (Decidable (Regular ℓ a ∧ Regular ℓ b))
  | select c a b =>
    have := decideRegular ℓ c
    have := decideRegular ℓ a
    have := decideRegular ℓ b
    inferInstanceAs (Decidable (Regular ℓ c ∧
      if Scalar.isZero (value ℓ c) then Regular ℓ b else Regular ℓ a))
  | apply _ _ | derivative _ _ | integral _ _ => inferInstanceAs (Decidable False)
  | power _ (sym _) | power _ (sum _) | power _ (product _) | power _ (power _ _)
  | power _ (call _ _) | power _ (apply _ _) | power _ (compare _ _ _) | power _ (select _ _ _)
  | power _ (derivative _ _) | power _ (integral _ _) => inferInstanceAs (Decidable False)

/-- Regularity of several expressions can be checked. -/
def decideRegularList (ℓ : Symbol → Option α) : (es : List (Expr α)) → Decidable (RegularList ℓ es)
  | [] => inferInstanceAs (Decidable True)
  | e :: es =>
    have := decideRegular ℓ e
    have := decideRegularList ℓ es
    inferInstanceAs (Decidable (Regular ℓ e ∧ RegularList ℓ es))

end

instance {ℓ : Symbol → Option α} : DecidablePred (Regular ℓ) := decideRegular ℓ

theorem regularList_iff {ℓ : Symbol → Option α} {es : List (Expr α)} :
    RegularList ℓ es ↔ ∀ e ∈ es, Regular ℓ e := by
  induction es with
  | nil => exact iff_of_true trivial (List.forall_mem_nil _)
  | cons e es ih => exact (and_congr_right' ih).trans List.forall_mem_cons.symm

section

variable {ℓ : Symbol → Option α}

@[simp] theorem regular_num (v : α) : Regular ℓ (num v) := trivial

theorem regular_sum {ts : List (Expr α)} : Regular ℓ (sum ts) ↔ ∀ t ∈ ts, Regular ℓ t := regularList_iff

theorem regular_product {fs : List (Expr α)} :
    Regular ℓ (product fs) ↔ ∀ f ∈ fs, Regular ℓ f := regularList_iff

theorem regular_call {f : Builtin} {args : List (Expr α)} :
    Regular ℓ (call f args) ↔ f ≠ .pow ∧ args.length = f.arity ∧ ∀ a ∈ args, Regular ℓ a :=
  and_congr_right' (and_congr_right' regularList_iff)

/-- The exponent of a regular power is an integer, and a base is zero only below a positive one. -/
theorem regular_power {b e : Expr α} :
    Regular ℓ (power b e) ↔ ∃ n, e = num n ∧ Regular ℓ b ∧ Scalar.isIntegral n = true ∧
      (Scalar.toInt n < 0 → Scalar.isZero (value ℓ b) = false) := by
  constructor
  · intro h
    cases e with
    | num n => exact ⟨n, rfl, h⟩
    | _ => exact False.elim h
  · rintro ⟨n, rfl, h⟩
    exact h

end

/-! ## Symbols that do not occur -/

omit [Scalar α] in
theorem dependsOnList_eq_false_iff {p : Symbol → Bool} {es : List (Expr α)} :
    dependsOnList p es = false ↔ ∀ e ∈ es, dependsOn p e = false := by
  induction es with
  | nil => simp [dependsOnList]
  | cons e es ih => simp [dependsOnList, ih]

theorem dependsOnList_eq_true_iff {α : Type} {p : Symbol → Bool} {es : List (Expr α)} :
    dependsOnList p es = true ↔ ∃ e ∈ es, dependsOn p e = true := by
  induction es with
  | nil => simp [dependsOnList]
  | cons e es ih => simp [dependsOnList, ih]

/-- An expression is free of certain symbols if it contains none of them. -/
theorem dependsOn_eq_false_iff {α : Type} {p : Symbol → Bool} {e : Expr α} :
    e.dependsOn p = false ↔ ∀ s, e.contains s = true → p s = false := by
  unfold contains
  induction e with
  | num v => simp [dependsOn]
  | sym t => simp [dependsOn]
  | sum ts ih | product ts ih | call _ ts ih | apply _ ts ih =>
    rw [dependsOn, dependsOnList_eq_false_iff]
    simp only [dependsOn, dependsOnList_eq_true_iff]
    constructor
    · rintro h s ⟨t, ht, hs⟩
      exact (ih t ht).mp (h t ht) s hs
    · intro h t ht
      exact (ih t ht).mpr fun s hs => h s ⟨t, ht, hs⟩
  | power a b ha hb | compare _ a b ha hb =>
    simp only [dependsOn, Bool.or_eq_false_iff, Bool.or_eq_true, ha, hb, or_imp, forall_and]
  | select c a b hc ha hb =>
    simp only [dependsOn, Bool.or_eq_false_iff, Bool.or_eq_true, hc, ha, hb, or_imp, forall_and]
  | derivative x _ ih | integral x _ ih => exact ih

section Congruence

variable {p : Symbol → Bool} {ℓ ℓ' : Symbol → Option α}

theorem evaluateList_congr {es : List (Expr α)}
    (h : ∀ e ∈ es, evaluate ℓ e = evaluate ℓ' e) : evaluateList ℓ es = evaluateList ℓ' es := by
  induction es with
  | nil => rfl
  | cons e es ih =>
    rw [evaluateList, evaluateList, h e List.mem_cons_self,
      ih fun x hx => h x (List.mem_cons_of_mem _ hx)]

/-- Evaluation looks up no symbol that does not occur. -/
theorem evaluate_congr (agree : ∀ s, p s = false → ℓ s = ℓ' s) {e : Expr α}
    (h : e.dependsOn p = false) : evaluate ℓ e = evaluate ℓ' e := by
  induction e with
  | num v => rfl
  | sym s => exact agree s h
  | sum ts ih | product ts ih =>
    have h := dependsOnList_eq_false_iff.mp h
    rw [evaluate, evaluate, evaluateList_congr fun t ht => ih t ht (h t ht)]
  | call f args ih =>
    have h := dependsOnList_eq_false_iff.mp h
    rw [evaluate, evaluate, evaluateList_congr fun a ha => ih a ha (h a ha)]
  | power a b ha hb | compare _ a b ha hb =>
    obtain ⟨h₁, h₂⟩ := Bool.or_eq_false_iff.mp h
    rw [evaluate, evaluate, ha h₁, hb h₂]
  | select c a b hc ha hb =>
    obtain ⟨h₁, h⟩ := Bool.or_eq_false_iff.mp h
    obtain ⟨h₂, h₃⟩ := Bool.or_eq_false_iff.mp h
    rw [evaluate, evaluate, hc h₁, ha h₂, hb h₃]
  | apply _ _ _ | derivative _ _ _ | integral _ _ _ => rfl

theorem value_congr (agree : ∀ s, p s = false → ℓ s = ℓ' s) {e : Expr α}
    (h : e.dependsOn p = false) : value ℓ e = value ℓ' e := by
  rw [value, value, evaluate_congr agree h]

/-- Neither does regularity. -/
theorem regular_congr (agree : ∀ s, p s = false → ℓ s = ℓ' s) {e : Expr α}
    (h : e.dependsOn p = false) : Regular ℓ e ↔ Regular ℓ' e := by
  induction e with
  | num v => simp
  | sym s => rw [Regular, Regular, agree s h]
  | sum ts ih =>
    have h := dependsOnList_eq_false_iff.mp h
    rw [regular_sum, regular_sum]
    exact forall₂_congr fun t ht => ih t ht (h t ht)
  | product fs ih =>
    have h := dependsOnList_eq_false_iff.mp h
    rw [regular_product, regular_product]
    exact forall₂_congr fun f hf => ih f hf (h f hf)
  | power b e hb _ =>
    obtain ⟨h₁, -⟩ := Bool.or_eq_false_iff.mp h
    rw [regular_power, regular_power, hb h₁, value_congr agree h₁]
  | call f args ih =>
    have h := dependsOnList_eq_false_iff.mp h
    rw [regular_call, regular_call]
    exact and_congr_right' (and_congr_right' (forall₂_congr fun a ha => ih a ha (h a ha)))
  | compare _ a b ha hb =>
    obtain ⟨h₁, h₂⟩ := Bool.or_eq_false_iff.mp h
    rw [Regular, Regular, ha h₁, hb h₂]
  | select c a b hc ha hb =>
    obtain ⟨h₁, h⟩ := Bool.or_eq_false_iff.mp h
    obtain ⟨h₂, h₃⟩ := Bool.or_eq_false_iff.mp h
    rw [Regular, Regular, hc h₁, value_congr agree h₁, ha h₂, hb h₃]
  | apply _ _ _ | derivative _ _ _ | integral _ _ _ => rw [Regular, Regular]

end Congruence

/-! ## Values -/

/-- The value is what evaluation yields, if it yields anything. -/
theorem value_of_evaluate {ℓ : Symbol → Option α} {e : Expr α} {x : α}
    (h : evaluate ℓ e = some x) : value ℓ e = x := by
  rw [value, h]; rfl

/-- Evaluation yields a value. -/
def HasValue (ℓ : Symbol → Option α) (e : Expr α) : Prop := (evaluate ℓ e).isSome = true

theorem HasValue.evaluate_eq {ℓ : Symbol → Option α} {e : Expr α} (h : HasValue ℓ e) :
    evaluate ℓ e = some (value ℓ e) := by
  obtain ⟨x, hx⟩ := Option.isSome_iff_exists.mp h
  rw [value_of_evaluate hx, hx]

/-- The values of several expressions are the values of each. -/
theorem evaluateList_eq_some {ℓ : Symbol → Option α} {es : List (Expr α)}
    (h : ∀ e ∈ es, HasValue ℓ e) : evaluateList ℓ es = some (es.map (value ℓ)) := by
  induction es with
  | nil => rfl
  | cons e es ih =>
    rw [evaluateList, (h e List.mem_cons_self).evaluate_eq,
      ih fun x hx => h x (List.mem_cons_of_mem _ hx)]
    rfl

/-- A built-in function has a value on as many arguments as it takes. -/
theorem isSome_applyBuiltin {f : Builtin} {xs : List α} (h : xs.length = f.arity) :
    (Scalar.applyBuiltin f xs).isSome := by
  match xs, h with
  | [], h => cases f <;> simp [Builtin.arity] at h
  | [x], h => simp [Scalar.applyBuiltin, ← h]
  | [x, y], h => simp [Scalar.applyBuiltin, ← h]
  | _ :: _ :: _ :: _, h => cases f <;> simp [Builtin.arity] at h

/-! ## Values node by node -/

section Exact

variable {α : Type} [ExactScalar α] {ℓ : Symbol → Option α}

theorem evaluate_sum {ts : List (Expr α)} (h : ∀ t ∈ ts, HasValue ℓ t) :
    evaluate ℓ (sum ts) = some (ts.map (value ℓ)).sum := by
  rw [List.sum_eq_foldl]
  exact congrArg (Option.map fun vs => vs.foldl (· + ·) 0) (evaluateList_eq_some h)

theorem evaluate_product {fs : List (Expr α)} (h : ∀ f ∈ fs, HasValue ℓ f) :
    evaluate ℓ (product fs) = some (fs.map (value ℓ)).prod := by
  rw [List.prod_eq_foldl]
  exact congrArg (Option.map fun vs => vs.foldl (· * ·) 1) (evaluateList_eq_some h)

theorem evaluate_power {b : Expr α} {n : α} (h : HasValue ℓ b) (hn : Scalar.isIntegral n = true) :
    evaluate ℓ (power b (num n)) = some (value ℓ b ^ Scalar.toInt n) := by
  rw [← Scalar.pow_eq_zpow hn]
  exact congrArg (Option.bind · fun x => some (Scalar.pow x n)) h.evaluate_eq

theorem evaluate_call {f : Builtin} {args : List (Expr α)} (h : ∀ a ∈ args, HasValue ℓ a) :
    evaluate ℓ (call f args) = Scalar.applyBuiltin f (args.map (value ℓ)) :=
  congrArg (Option.bind · (Scalar.applyBuiltin f)) (evaluateList_eq_some h)

theorem evaluate_compare {c : Comparison} {a b : Expr α} (ha : HasValue ℓ a) (hb : HasValue ℓ b) :
    evaluate ℓ (compare c a b) = some (Scalar.ofBool (c.holds (value ℓ a) (value ℓ b))) :=
  congrArg₂ (fun x? y? : Option α => x?.bind fun x => y?.bind fun y => some (Scalar.ofBool (c.holds x y)))
    ha.evaluate_eq hb.evaluate_eq

theorem evaluate_select {c a b : Expr α} (hc : HasValue ℓ c) :
    evaluate ℓ (select c a b) =
      if Scalar.isZero (value ℓ c) then evaluate ℓ b else evaluate ℓ a :=
  congrArg (Option.bind · fun v => if Scalar.isZero v then evaluate ℓ b else evaluate ℓ a) hc.evaluate_eq

/-- A regular expression has a value. -/
theorem Regular.hasValue {e : Expr α} (h : Regular ℓ e) : HasValue ℓ e := by
  unfold HasValue
  induction e with
  | num v => rfl
  | sym s => exact h
  | sum ts ih => rw [evaluate_sum fun t ht => ih t ht (regular_sum.mp h t ht)]; rfl
  | product fs ih => rw [evaluate_product fun f hf => ih f hf (regular_product.mp h f hf)]; rfl
  | power b e hb he =>
    obtain ⟨n, rfl, h, hn, -⟩ := regular_power.mp h
    rw [evaluate_power (hb h) hn]
    rfl
  | call f args ih =>
    obtain ⟨-, arity, h⟩ := regular_call.mp h
    rw [evaluate_call fun a ha => ih a ha (h a ha)]
    exact isSome_applyBuiltin (by rwa [List.length_map])
  | compare c a b ha hb =>
    rw [evaluate_compare (ha h.1) (hb h.2)]
    rfl
  | select c a b hc ha hb =>
    obtain ⟨h, chosen⟩ := h
    rw [evaluate_select (hc h)]
    split
    · next hz => exact hb (by simpa [hz] using chosen)
    · next hz => exact ha (by simpa [hz] using chosen)
  | apply f args ih | derivative x t ih | integral x t ih => exact False.elim h

theorem evaluate_eq {e : Expr α} (h : Regular ℓ e) : evaluate ℓ e = some (value ℓ e) :=
  h.hasValue.evaluate_eq

@[simp] theorem value_num (v : α) : value ℓ (num v) = v := rfl

theorem value_sum {ts : List (Expr α)} (h : ∀ t ∈ ts, Regular ℓ t) :
    value ℓ (sum ts) = (ts.map (value ℓ)).sum :=
  value_of_evaluate (evaluate_sum fun t ht => (h t ht).hasValue)

theorem value_product {fs : List (Expr α)} (h : ∀ f ∈ fs, Regular ℓ f) :
    value ℓ (product fs) = (fs.map (value ℓ)).prod :=
  value_of_evaluate (evaluate_product fun f hf => (h f hf).hasValue)

theorem value_power {b : Expr α} {n : α} (h : Regular ℓ b) (hn : Scalar.isIntegral n = true) :
    value ℓ (power b (num n)) = value ℓ b ^ Scalar.toInt n :=
  value_of_evaluate (evaluate_power h.hasValue hn)

theorem value_call {f : Builtin} {args : List (Expr α)} (h : ∀ a ∈ args, Regular ℓ a) :
    value ℓ (call f args) = (Scalar.applyBuiltin f (args.map (value ℓ))).getD 0 := by
  rw [value, evaluate_call fun a ha => (h a ha).hasValue]

theorem value_compare {c : Comparison} {a b : Expr α} (ha : Regular ℓ a) (hb : Regular ℓ b) :
    value ℓ (compare c a b) = Scalar.ofBool (c.holds (value ℓ a) (value ℓ b)) :=
  value_of_evaluate (evaluate_compare ha.hasValue hb.hasValue)

theorem value_select {c a b : Expr α} (hc : Regular ℓ c) :
    value ℓ (select c a b) = if Scalar.isZero (value ℓ c) then value ℓ b else value ℓ a := by
  rw [value, evaluate_select hc.hasValue]
  split <;> rfl

end Exact

end AnalogCircuit.Expr
