import AnalogCircuit.Proofs.Composed
/-!
# Arguments in any order

A canonical product does not depend on the order of its factors. The exponents of a base are listed as its powers
come, so what is collected depends on the order; but only the sum of the exponents is made use of, and a canonical
sum depends on nothing but the multiset of its terms. The entries are therefore compared with multisets in place of
lists, and a multiset is the same whatever is entered first.
-/

namespace AnalogCircuit.Expr

section

variable {α β γ ι : Type} [Scalar α] {d : β} {φ : β → γ}

/-- Seeing the entries in another way commutes with a change to one of them. -/
theorem map_adjust {f : β → β} {g : γ → γ} (h : ∀ v, φ (f v) = g (φ v)) (k : Expr α) (l : List (Expr α × β)) :
    (adjust d k f l).map (Prod.map id φ) = adjust (φ d) k g (l.map (Prod.map id φ)) := by
  induction l with
  | nil => simp [adjust, h]
  | cons p rest ih =>
    obtain ⟨k', v⟩ := p
    cases place : order k k' <;> simp [adjust, place, h, ih]

theorem map_collect {key : ι → Expr α} {change : ι → β → β} {change' : ι → γ → γ}
    (h : ∀ x v, φ (change x v) = change' x (φ v)) (xs : List ι) (l : List (Expr α × β)) :
    (collect d key change xs l).map (Prod.map id φ) =
      collect (φ d) key change' xs (l.map (Prod.map id φ)) := by
  induction xs generalizing l with
  | nil => rfl
  | cons x xs ih =>
    unfold collect at ih ⊢
    rw [List.foldl_cons, List.foldl_cons, ih, map_adjust (h x)]

end

variable {α : Type} [ExactScalar α] [Std.TransCmp (Scalar.order (α := α))] {es es' : List (Expr α)}

/-- The canonical sum of the terms in a multiset. -/
def sumOf (s : Multiset (Expr α)) : Expr α := Quotient.lift mkSum (fun _ _ => mkSum_eq_of_perm) s

/-- What is collected of factors, with the exponents of a base in no order. -/
def exponents (fs : List (Expr α)) : List (Expr α × Multiset (Expr α)) :=
  (collectFactors fs).map (Prod.map id Multiset.ofList)

theorem exponents_eq_of_perm {fs fs' : List (Expr α)} (perm : fs.Perm fs') : exponents fs = exponents fs' := by
  have collected (fs : List (Expr α)) : exponents fs =
      collect 0 (·.basePower.1) (fun f s => f.basePower.2 ::ₘ s) (fs.filter (·.constant?.isNone)) [] := by
    have entered (f : Expr α) (es : List (Expr α)) :
        (↑(es ++ [f.basePower.2]) : Multiset (Expr α)) = f.basePower.2 ::ₘ ↑es :=
      Multiset.coe_eq_coe.mpr (List.perm_append_singleton f.basePower.2 es)
    unfold exponents
    rw [collectFactors_eq_collect, map_collect entered]
    rfl
  rw [collected, collected]
  exact collect_eq_of_perm (fun f g s => Multiset.cons_swap f.basePower.2 g.basePower.2 s) (perm.filter _)

theorem collectedPowers_eq (es : List (Expr α)) :
    collectedPowers es = (exponents (factorsList es)).flatMap fun g => (mkPow g.1 (sumOf g.2)).topFactors := by
  unfold collectedPowers exponents
  rw [List.flatMap_map]
  rfl

/-- The canonical product does not depend on the order of the factors. -/
theorem mkProduct_eq_of_perm (perm : es.Perm es') : mkProduct es = mkProduct es' := by
  have factors : (factorsList es).Perm (factorsList es') := by
    rw [factorsList_eq_flatMap, factorsList_eq_flatMap]
    exact perm.flatMap_right _
  have powers : collectedPowers es = collectedPowers es' := by
    rw [collectedPowers_eq, collectedPowers_eq, exponents_eq_of_perm factors]
  have constant : ((factorsList es).filterMap constant?).foldl (· * ·) (1 : α) =
      ((factorsList es').filterMap constant?).foldl (· * ·) 1 := by
    rw [← List.prod_eq_foldl, ← List.prod_eq_foldl]
    exact (factors.filterMap _).prod_eq
  rw [mkProduct_eq_assemble, mkProduct_eq_assemble]
  dsimp only
  rw [constant, powers]

/-- Sums and products are the same trees in whatever order their arguments come, canonical or not. -/
theorem mkSum_mkProduct_eq_of_perm (perm : es.Perm es') : mkSum es = mkSum es' ∧ mkProduct es = mkProduct es' :=
  ⟨mkSum_eq_of_perm perm, mkProduct_eq_of_perm perm⟩

/-- Arguments that are not canonical: a product with powers of one base, a power of a product, a sum in a sum. -/
def disordered : List (Expr ℚ) :=
  let x : Expr ℚ := sym (.named "x")
  let n : Expr ℚ := sym (.named "n")
  [product [power x n, x, num 2], power (product [x, n]) (num 3), sum [sum [n, num 1], x], num (1 / 2)]

theorem mkSum_mkProduct_disordered :
    disordered.reverse.Perm disordered ∧ mkSum disordered.reverse = mkSum disordered ∧
      mkProduct disordered.reverse = mkProduct disordered :=
  ⟨disordered.reverse_perm, mkSum_mkProduct_eq_of_perm disordered.reverse_perm⟩

end AnalogCircuit.Expr
