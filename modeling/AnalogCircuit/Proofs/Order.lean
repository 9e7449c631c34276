import AnalogCircuit.Proofs.Exact
import AnalogCircuit.Proofs.Induction
/-!
# The order identifies trees

Two expressions that the order does not tell apart are the same tree. So looking up a key in a sorted
list, collecting like terms and finding a value computed before never mistake one expression for another.
All that is asked of the numbers is that their own order tells different ones apart.
-/

namespace AnalogCircuit

/-! ## Constants -/

instance {α : Type} [ExactScalar α] : Std.LawfulEqCmp (Scalar.order (α := α)) where
  compare_self := ExactScalar.order_eq_iff.mpr rfl
  eq_of_compare := ExactScalar.order_eq_iff.mp

/-! ## Symbols -/

theorem Sample.rank_inj {a b : Sample} (h : a.rank = b.rank) : a = b := by
  cases a <;> cases b <;> first | rfl | exact absurd h (by decide)

theorem Symbol.order_eq_iff {a b : Symbol} : Symbol.order a b = .eq ↔ a = b := by
  unfold Symbol.order
  rw [Ordering.then_eq_eq, Std.LawfulEqCmp.compare_eq_iff_eq, Std.LawfulEqCmp.compare_eq_iff_eq]
  constructor
  · rintro ⟨hn, hs⟩
    cases a
    cases b
    exact congrArg₂ Symbol.mk hn (Sample.rank_inj hs)
  · rintro rfl
    exact ⟨rfl, rfl⟩

theorem Comparison.rank_inj {a b : Comparison} (h : a.rank = b.rank) : a = b := by
  cases a <;> cases b <;> first | rfl | exact absurd h (by decide)

/-! ## Expressions -/

namespace Expr

variable {α : Type} [Scalar α] [Std.LawfulEqCmp (Scalar.order (α := α))]

omit [Std.LawfulEqCmp (Scalar.order (α := α))] in
/-- Lists of which the members are told apart are told apart. -/
theorem orderList_eq_iff {as bs : List (Expr α)}
    (h : ∀ a ∈ as, ∀ b, order a b = .eq ↔ a = b) : orderList as bs = .eq ↔ as = bs := by
  induction as generalizing bs with
  | nil => cases bs <;> simp [orderList]
  | cons a as ih =>
    cases bs with
    | nil => simp [orderList]
    | cons b bs =>
      rw [orderList, Ordering.then_eq_eq, h a List.mem_cons_self,
        ih fun x hx => h x (List.mem_cons_of_mem _ hx), List.cons.injEq]

/-- The order tells every two different expressions apart. -/
theorem order_eq_iff {a b : Expr α} : order a b = .eq ↔ a = b := by
  induction a generalizing b with
  | num v =>
    cases b with
    | num w => rw [order, num.injEq]; exact Std.LawfulEqCmp.compare_eq_iff_eq
    | _ => simp [order, rank]
  | sym s =>
    cases b with
    | sym t => rw [order, sym.injEq, Symbol.order_eq_iff]
    | _ => simp [order, rank]
  | sum ts ih =>
    cases b with
    | sum us => rw [order, sum.injEq, orderList_eq_iff fun a ha _ => ih a ha]
    | _ => simp [order, rank]
  | product fs ih =>
    cases b with
    | product gs => rw [order, product.injEq, orderList_eq_iff fun a ha _ => ih a ha]
    | _ => simp [order, rank]
  | power x e hx he =>
    cases b with
    | power y d => rw [order, power.injEq, Ordering.then_eq_eq, hx, he]
    | _ => simp [order, rank]
  | call f as ih =>
    cases b with
    | call g bs =>
      rw [order, call.injEq, Ordering.then_eq_eq, orderList_eq_iff fun a ha _ => ih a ha,
        Nat.compare_eq_eq]
      exact and_congr_left fun _ => ⟨Builtin.rank_inj, congrArg Builtin.rank⟩
    | _ => simp [order, rank]
  | apply f as ih =>
    cases b with
    | apply g bs =>
      rw [order, apply.injEq, Ordering.then_eq_eq, orderList_eq_iff fun a ha _ => ih a ha,
        Std.LawfulEqCmp.compare_eq_iff_eq]
    | _ => simp [order, rank]
  | compare p x y hx hy =>
    cases b with
    | compare q u v =>
      rw [order, compare.injEq, Ordering.then_eq_eq, Ordering.then_eq_eq, hx, hy,
        Nat.compare_eq_eq, and_assoc]
      exact and_congr_left fun _ => ⟨Comparison.rank_inj, congrArg Comparison.rank⟩
    | _ => simp [order, rank]
  | select c x y hc hx hy =>
    cases b with
    | select d u v =>
      rw [order, select.injEq, Ordering.then_eq_eq, Ordering.then_eq_eq, hc, hx, hy, and_assoc]
    | _ => simp [order, rank]
  | derivative x s ih =>
    cases b with
    | derivative y t => rw [order, derivative.injEq, Ordering.then_eq_eq, ih, Symbol.order_eq_iff]
    | _ => simp [order, rank]
  | integral x s ih =>
    cases b with
    | integral y t => rw [order, integral.injEq, Ordering.then_eq_eq, ih, Symbol.order_eq_iff]
    | _ => simp [order, rank]

instance : Std.LawfulEqCmp (order (α := α)) where
  compare_self := order_eq_iff.mpr rfl
  eq_of_compare := order_eq_iff.mp

/-- Equality by the order is equality. -/
instance : LawfulBEq (Expr α) where
  eq_of_beq {_ _} h := order_eq_iff.mp (Ordering.isEq_iff_eq_eq.mp h)
  rfl {_} := Ordering.isEq_iff_eq_eq.mpr (order_eq_iff.mpr rfl)

end Expr

end AnalogCircuit
