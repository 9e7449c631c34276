import AnalogCircuit.Proofs.Substitution
/-!
# Canonical constructors compute

Whatever a canonical constructor flattens, merges, cancels or drops, its result has the value of the plain operation
on the values of its operands, wherever that operation and the operands are defined: no divisor vanishes and all
powers are integral. Nothing is said about the built-in functions but that constants are folded by the same ones.

The result is defined in the same sense, so constructors can be nested.
-/

namespace AnalogCircuit.Expr

variable {α : Type} [ExactScalar α]

/-- Evaluation yields the value, and no divisor vanishes on the way. -/
structure Yields (ℓ : Symbol → Option α) (e : Expr α) (v : α) : Prop where
  regular : Regular ℓ e
  evaluates : evaluate ℓ e = some v

/-- The constructors compute with what their operands yield. -/
structure Computes (ℓ : Symbol → Option α) : Prop where
  num (v : α) : Yields ℓ (mkNum v) v
  sum {es : List (Expr α)} {vs : List α} : List.Forall₂ (Yields ℓ) es vs → Yields ℓ (mkSum es) vs.sum
  product {es : List (Expr α)} {vs : List α} : List.Forall₂ (Yields ℓ) es vs → Yields ℓ (mkProduct es) vs.prod
  /-- A base is zero only below an exponent that is not negative. -/
  pow {b : Expr α} {x : α} {n : Int} : Yields ℓ b x → (n < 0 → x ≠ 0) →
    Yields ℓ (mkPow b (mkNum n)) (x ^ n) ∧ Yields ℓ (mkCall .pow [b, mkNum n]) (x ^ n)
  neg {a : Expr α} {x : α} : Yields ℓ a x → Yields ℓ (-a) (-x)
  add {a b : Expr α} {x y : α} : Yields ℓ a x → Yields ℓ b y → Yields ℓ (a + b) (x + y)
  sub {a b : Expr α} {x y : α} : Yields ℓ a x → Yields ℓ b y → Yields ℓ (a - b) (x - y)
  mul {a b : Expr α} {x y : α} : Yields ℓ a x → Yields ℓ b y → Yields ℓ (a * b) (x * y)
  div {a b : Expr α} {x y : α} : Yields ℓ a x → Yields ℓ b y → y ≠ 0 → Yields ℓ (a / b) (x / y)
  call {f : Builtin} {args : List (Expr α)} {xs : List α} {v : α} : f ≠ .pow →
    List.Forall₂ (Yields ℓ) args xs → Scalar.applyBuiltin f xs = some v → Yields ℓ (mkCall f args) v
  compare {c : Comparison} {a b : Expr α} {x y : α} : Yields ℓ a x → Yields ℓ b y →
    Yields ℓ (mkCompare c a b) (Scalar.ofBool (c.holds x y))
  /-- Nothing is asked of the branch that is not taken. -/
  select {c a b : Expr α} {x y : α} : Yields ℓ c x →
    Yields ℓ (if Scalar.isZero x then b else a) y → Yields ℓ (mkSelect c a b) y

variable {ℓ : Symbol → Option α} {e : Expr α} {v : α}

theorem yields_iff : Yields ℓ e v ↔ Denotes ℓ e v := by
  constructor
  · rintro ⟨regular, evaluates⟩
    exact ⟨regular, value_of_evaluate evaluates⟩
  · rintro ⟨regular, rfl⟩
    exact ⟨regular, evaluate_eq regular⟩

theorem Yields.value_eq (h : Yields ℓ e v) : value ℓ e = v := value_of_evaluate h.evaluates

/-- What evaluation yields, if no divisor vanishes on the way. -/
def defined? (ℓ : Symbol → Option α) (e : Expr α) : Option α := if Regular ℓ e then evaluate ℓ e else none

theorem defined?_eq_some_iff : defined? ℓ e = some v ↔ Yields ℓ e v := by
  unfold defined?
  constructor
  · intro h
    by_cases regular : Regular ℓ e
    · exact ⟨regular, by rwa [if_pos regular] at h⟩
    · rw [if_neg regular] at h
      cases h
  · rintro ⟨regular, evaluates⟩
    rw [if_pos regular, evaluates]

/-- Several expressions that yield values are regular, and those are their values. -/
theorem forall₂_yields {es : List (Expr α)} {vs : List α} (h : List.Forall₂ (Yields ℓ) es vs) :
    (∀ e ∈ es, Regular ℓ e) ∧ es.map (value ℓ) = vs := by
  induction h with
  | nil => exact ⟨fun _ h => absurd h List.not_mem_nil, rfl⟩
  | cons first _ ih =>
    exact ⟨List.forall_mem_cons.mpr ⟨first.regular, ih.1⟩, by rw [List.map_cons, first.value_eq, ih.2]⟩

/-- A built-in function has a value only on as many arguments as it takes. -/
theorem length_of_applyBuiltin {f : Builtin} {xs : List α} (h : Scalar.applyBuiltin f xs = some v) :
    xs.length = f.arity := by
  unfold Scalar.applyBuiltin at h
  split at h
  · split at h
    · next one => exact one.symm
    · cases h
  · split at h
    · next two => exact two.symm
    · cases h
  · cases h

theorem mkPow_yields {b : Expr α} {x : α} {n : Int} (h : Yields ℓ b x) (nonzero : n < 0 → x ≠ 0) :
    Yields ℓ (mkPow b (mkNum n)) (x ^ n) := by
  have integral : Scalar.isIntegral (n : α) = true := Scalar.isIntegral_iff.mpr ⟨n, rfl⟩
  have regular : Regular ℓ (power b (num (n : α))) := by
    refine regular_power.mpr ⟨n, rfl, h.regular, integral, fun negative => ?_⟩
    rw [Scalar.toInt_intCast] at negative
    rw [h.value_eq]
    exact Scalar.isZero_eq_false_iff.mpr (nonzero negative)
  have power := mkPow_denotes regular
  rw [value_power h.regular integral, Scalar.toInt_intCast, h.value_eq] at power
  rw [mkNum_eq]
  exact yields_iff.mpr power

theorem mkCall_yields {f : Builtin} {args : List (Expr α)} {xs : List α} (function : f ≠ .pow)
    (h : List.Forall₂ (Yields ℓ) args xs) (result : Scalar.applyBuiltin f xs = some v) :
    Yields ℓ (mkCall f args) v := by
  obtain ⟨regular, values⟩ := forall₂_yields h
  have arity : args.length = f.arity := h.length_eq.trans (length_of_applyBuiltin result)
  have call := mkCall_denotes (regular_call.mpr ⟨function, arity, regular⟩)
  rw [value_call regular, values, result] at call
  exact yields_iff.mpr call

theorem mkSelect_yields {c a b : Expr α} {x y : α} (hc : Yields ℓ c x)
    (branch : Yields ℓ (if Scalar.isZero x then b else a) y) : Yields ℓ (mkSelect c a b) y := by
  have regular : Regular ℓ (Expr.select c a b) := by
    refine regular_select.mpr ⟨hc.regular, ?_⟩
    rw [hc.value_eq]
    split
    · next zero => rw [if_pos zero] at branch; exact branch.regular
    · next zero => rw [if_neg zero] at branch; exact branch.regular
  have select := mkSelect_denotes regular
  rw [value_select hc.regular, hc.value_eq, ← apply_ite (value ℓ), branch.value_eq] at select
  exact yields_iff.mpr select

/-- Under every valuation the constructors compute with what their operands yield. -/
theorem constructors_compute (ℓ : Symbol → Option α) : Computes ℓ where
  num v := yields_iff.mpr (by rw [mkNum_eq]; exact denotes_num v)
  sum h := by
    obtain ⟨regular, rfl⟩ := forall₂_yields h
    exact yields_iff.mpr (mkSum_denotes regular)
  product h := by
    obtain ⟨regular, rfl⟩ := forall₂_yields h
    exact yields_iff.mpr (mkProduct_denotes regular)
  pow h nonzero := ⟨mkPow_yields h nonzero, mkPow_yields h nonzero⟩
  neg h := yields_iff.mpr (h.value_eq ▸ neg_denotes h.regular)
  add ha hb := yields_iff.mpr (ha.value_eq ▸ hb.value_eq ▸ add_denotes ha.regular hb.regular)
  sub ha hb := yields_iff.mpr (ha.value_eq ▸ hb.value_eq ▸ sub_denotes ha.regular hb.regular)
  mul ha hb := yields_iff.mpr (ha.value_eq ▸ hb.value_eq ▸ mul_denotes ha.regular hb.regular)
  div ha hb nonzero := by
    have quotient := div_denotes ha.regular hb.regular (hb.value_eq.symm ▸ nonzero)
    rw [ha.value_eq, hb.value_eq] at quotient
    exact yields_iff.mpr quotient
  call := mkCall_yields
  compare {c a b x y} ha hb := by
    have comparison := mkCompare_denotes (c := c) (regular_compare.mpr ⟨ha.regular, hb.regular⟩)
    rw [value_compare ha.regular hb.regular, ha.value_eq, hb.value_eq] at comparison
    exact yields_iff.mpr comparison
  select := mkSelect_yields

end AnalogCircuit.Expr
