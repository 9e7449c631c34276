import AnalogCircuit.Proofs.Merging
/-!
# Expressions that are composed

Every composition of the constructors and the operators is tidy, over any numbers. In exact arithmetic it is canonical
as soon as it is merged, and only then. The constructors merge before they put the parts of their result together: a
term that loses its coefficient there may turn out to be a sum, and a power that loses its exponent a product, and
neither is flattened any more.
-/

namespace AnalogCircuit.Expr

section

variable {α : Type} [Scalar α]

/-- What can be composed of constants and symbols. -/
inductive Composed : Expr α → Prop
  | num (v : α) : Composed (num v)
  | sym (s : Symbol) : Composed (sym s)
  | sum {es : List (Expr α)} : (∀ e ∈ es, Composed e) → Composed (mkSum es)
  | product {es : List (Expr α)} : (∀ e ∈ es, Composed e) → Composed (mkProduct es)
  | pow {b x : Expr α} : Composed b → Composed x → Composed (mkPow b x)
  | neg {a : Expr α} : Composed a → Composed (-a)
  | add {a b : Expr α} : Composed a → Composed b → Composed (a + b)
  | sub {a b : Expr α} : Composed a → Composed b → Composed (a - b)
  | mul {a b : Expr α} : Composed a → Composed b → Composed (a * b)
  | div {a b : Expr α} : Composed a → Composed b → Composed (a / b)
  | call {f : Builtin} {es : List (Expr α)} : (∀ e ∈ es, Composed e) → Composed (mkCall f es)
  | apply {name : String} {es : List (Expr α)} : (∀ e ∈ es, Composed e) → Composed (apply name es)
  | compare {o : Comparison} {a b : Expr α} : Composed a → Composed b → Composed (mkCompare o a b)
  | select {x a b : Expr α} : Composed x → Composed a → Composed b → Composed (mkSelect x a b)

variable [Std.TransCmp (Scalar.order (α := α))] [Std.LawfulEqCmp (Scalar.order (α := α))] {e : Expr α}

theorem Composed.isTidy (h : Composed e) : IsTidy e := by
  induction h with
  | num v => exact isTidy_num v
  | sym s => exact isTidy_sym s
  | sum _ ih => exact isTidy_mkSum ih
  | product _ ih => exact isTidy_mkProduct ih
  | pow _ _ hb hx => exact isTidy_mkPow hb hx
  | neg _ ha => exact isTidy_neg ha
  | add _ _ ha hb => exact isTidy_mkSum (by simp [ha, hb])
  | sub _ _ ha hb => exact isTidy_mkSum (by simp [ha, isTidy_neg hb])
  | mul _ _ ha hb => exact isTidy_mkProduct (by simp [ha, hb])
  | div _ _ ha hb => exact isTidy_mkProduct (by simp [ha, isTidy_mkPow hb (isTidy_mkNum _)])
  | call _ ih => exact isTidy_mkCall ih
  | apply _ ih => exact isTidy_apply ih
  | compare _ _ ha hb => exact isTidy_mkCompare ha hb
  | select _ _ _ hx ha hb => exact isTidy_mkSelect hx ha hb

end

section

variable {α : Type} [ExactScalar α] [Std.TransCmp (Scalar.order (α := α))] {e : Expr α}

/-- Every node of a composed expression is as its constructor leaves it, so no sum in it has a term zero or two terms
that differ in their coefficients only, and no product in it has a product or a second constant among its factors. All
nodes are moreover what their constructors make of their parts exactly if no sum has a sum among its terms and no
product has two powers of a common base. -/
theorem Composed.isTidy_and_isCanonical_iff (h : Composed e) : IsTidy e ∧ (IsCanonical e ↔ IsMerged e) :=
  ⟨h.isTidy, h.isTidy.isCanonical_iff fun v _ => Scalar.isNeutral v⟩

end

/-! ## Compositions of rational numbers -/

instance : Std.TransCmp (Scalar.order (α := ℚ)) := inferInstanceAs (Std.TransCmp (Ord.compare (α := ℚ)))

/-- `2*(a + b) - (a + b) + c`. -/
def cancelled : Expr ℚ := mkSum [mkNum 2 * (named "a" + named "b"), -(named "a" + named "b"), named "c"]

theorem composed_cancelled : Composed cancelled := by
  have ab : Composed (named "a" + named "b" : Expr ℚ) := .add (.sym _) (.sym _)
  refine .sum ?_
  simp only [List.forall_mem_cons, List.not_mem_nil, false_implies, implies_true, and_true]
  exact ⟨.mul (.num _) ab, .neg ab, .sym _⟩

/-- The sum that is left over after its multiples have been collected is not flattened. -/
theorem cancelled_eq : cancelled = sum [named "c", sum [named "a", named "b"]] :=
  eq_of_beq (by decide +kernel)

theorem composed_not_isCanonical : Composed cancelled ∧ ¬ IsCanonical cancelled := by
  refine ⟨composed_cancelled, fun canonical => ?_⟩
  have merged := canonical.isMerged
  rw [cancelled_eq] at merged
  exact (isMerged_iff.mp merged).1 (sum [named "a", named "b"]) (by simp) _ rfl

/-- `((a + b)^2*c^d*3 + (a + b)^2*c^d)/2`. -/
def collected : Expr ℚ :=
  let scaled := mkPow (named "a" + named "b") (mkNum 2) * mkPow (named "c") (named "d")
  (scaled * mkNum 3 + scaled) / mkNum 2

theorem composed_isCanonical :
    Composed collected ∧ IsMerged collected ∧ IsTidy collected ∧ IsCanonical collected := by
  have composed : Composed collected := by
    have scaled : Composed (mkPow (named "a" + named "b") (mkNum 2) * mkPow (named "c") (named "d") : Expr ℚ) :=
      .mul (.pow (.add (.sym _) (.sym _)) (.num _)) (.pow (.sym _) (.sym _))
    exact .div (.add (.mul scaled (.num _)) scaled) (.num _)
  have tree : collected = product [num 2, power (named "c") (named "d"),
      power (sum [named "a", named "b"]) (num 2)] := eq_of_beq (by decide +kernel)
  have merged : IsMerged collected := by
    rw [tree]
    simp [IsMerged, Everywhere, nodes, nodesList, named, MergedNode, bases, constant?, basePower]
  obtain ⟨tidy, iff⟩ := composed.isTidy_and_isCanonical_iff
  exact ⟨composed, merged, tidy, iff.mpr merged⟩

end AnalogCircuit.Expr
