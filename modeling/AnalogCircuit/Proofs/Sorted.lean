import AnalogCircuit.Proofs.Order
/-!
# Sorted expressions

Where the order of the numbers is total, that of the expressions is: it is turned round with its operands, and it is
transitive. Then a list has only one sorted arrangement, so sorting forgets how its elements stood before, and a
sorted list is left as it is.
-/

namespace AnalogCircuit

/-! ## Orders one after the other -/

/-- Where the first operands are in one order and the second ones too, the pairs are. -/
theorem then_lt_trans {β : Type} {cmp : β → β → Ordering} [Std.LawfulEqCmp cmp] {a b c : β}
    {p q r : Ordering} (first : cmp a b = .lt → cmp b c = .lt → cmp a c = .lt)
    (second : p = .lt → q = .lt → r = .lt) (hab : (cmp a b).then p = .lt) (hbc : (cmp b c).then q = .lt) :
    (cmp a c).then r = .lt := by
  rw [Ordering.then_eq_lt] at *
  rcases hab with hab | ⟨hab, hp⟩
  · rcases hbc with hbc | ⟨hbc, -⟩
    · exact .inl (first hab hbc)
    · exact .inl (Std.LawfulEqCmp.eq_of_compare hbc ▸ hab)
  · obtain rfl := Std.LawfulEqCmp.eq_of_compare hab
    rcases hbc with hbc | ⟨hbc, hq⟩
    · exact .inl hbc
    · exact .inr ⟨hbc, second hp hq⟩

/-- A transitive order that tells all different elements apart comes from a strict order. -/
theorem transCmp_of_lt_trans {β : Type} {cmp : β → β → Ordering} [Std.LawfulEqCmp cmp]
    (swap : ∀ a b, cmp a b = (cmp b a).swap)
    (trans : ∀ a b c, cmp a b = .lt → cmp b c = .lt → cmp a c = .lt) : Std.TransCmp cmp where
  eq_swap {a b} := swap a b
  isLE_trans {a b c} hab hbc := by
    rw [Ordering.isLE_iff_eq_lt_or_eq_eq] at *
    rcases hab with hab | hab
    · rcases hbc with hbc | hbc
      · exact .inl (trans a b c hab hbc)
      · exact .inl (Std.LawfulEqCmp.eq_of_compare hbc ▸ hab)
    · exact Std.LawfulEqCmp.eq_of_compare hab ▸ hbc

/-! ## Sorted lists -/

section

variable {β : Type} {le : β → β → Bool}

theorem pairwise_insertBy (total : ∀ a b, le a b = false → le b a = true)
    (trans : ∀ a b c, le a b = true → le b c = true → le a c = true) {xs : List β}
    (h : xs.Pairwise fun a b => le a b = true) (x : β) : (insertBy le x xs).Pairwise fun a b => le a b = true := by
  induction xs with
  | nil => exact List.pairwise_singleton _ _
  | cons y ys ih =>
    obtain ⟨first, rest⟩ := List.pairwise_cons.mp h
    unfold insertBy
    split
    · next before =>
      refine List.pairwise_cons.mpr ⟨fun z hz => ?_, h⟩
      rcases List.mem_cons.mp hz with rfl | hz
      · exact before
      · exact trans _ _ _ before (first z hz)
    · next behind =>
      refine List.pairwise_cons.mpr ⟨fun z hz => ?_, ih rest⟩
      rcases List.mem_cons.mp ((insertBy_perm le x ys).mem_iff.mp hz) with rfl | hz
      · exact total _ _ (Bool.not_eq_true _ ▸ behind)
      · exact first z hz

/-- Sorting puts elements in order. -/
theorem pairwise_sortBy (total : ∀ a b, le a b = false → le b a = true)
    (trans : ∀ a b c, le a b = true → le b c = true → le a c = true) (xs : List β) :
    (sortBy le xs).Pairwise fun a b => le a b = true := by
  induction xs with
  | nil => exact List.Pairwise.nil
  | cons x xs ih => exact pairwise_insertBy total trans ih x

/-- Sorting forgets how the elements stood before. -/
theorem sortBy_eq_of_perm (total : ∀ a b, le a b = false → le b a = true)
    (trans : ∀ a b c, le a b = true → le b c = true → le a c = true)
    (antisymm : ∀ a b, le a b = true → le b a = true → a = b) {xs ys : List β} (perm : xs.Perm ys) :
    sortBy le xs = sortBy le ys :=
  List.Perm.eq_of_pairwise (fun a b _ _ hab hba => antisymm a b hab hba) (pairwise_sortBy total trans xs)
    (pairwise_sortBy total trans ys) ((sortBy_perm le xs).trans (perm.trans (sortBy_perm le ys).symm))

end

/-! ## Symbols -/

namespace Symbol

instance : Std.LawfulEqCmp order where
  compare_self := order_eq_iff.mpr rfl
  eq_of_compare := order_eq_iff.mp

theorem order_swap (a b : Symbol) : order a b = (order b a).swap := by
  unfold order
  rw [Ordering.swap_then, ← Std.OrientedCmp.eq_swap, ← Std.OrientedCmp.eq_swap]

theorem order_lt_trans {a b c : Symbol} (hab : order a b = .lt) (hbc : order b c = .lt) : order a c = .lt :=
  then_lt_trans Std.TransCmp.lt_trans Std.TransCmp.lt_trans hab hbc

end Symbol

namespace Expr

variable {α : Type} [Scalar α]

/-! ## Kinds of expressions -/

/-- Expressions of different kinds are ordered by kind. -/
theorem order_of_rank_ne {a b : Expr α} (h : a.rank ≠ b.rank) : order a b = Ord.compare a.rank b.rank := by
  cases a <;> cases b <;> first | rfl | exact absurd rfl h

theorem order_eq_lt_of_rank_lt {a b : Expr α} (h : a.rank < b.rank) : order a b = .lt := by
  rw [order_of_rank_ne (Nat.ne_of_lt h)]
  exact Nat.compare_eq_lt.mpr h

theorem rank_le_of_order_eq_lt {a b : Expr α} (h : order a b = .lt) : a.rank ≤ b.rank := by
  by_cases same : a.rank = b.rank
  · exact Nat.le_of_eq same
  · rw [order_of_rank_ne same] at h
    exact Nat.le_of_lt (Nat.compare_eq_lt.mp h)

/-! ## The order is total -/

theorem orderList_swap {as bs : List (Expr α)} (h : ∀ a ∈ as, ∀ b, order a b = (order b a).swap) :
    orderList as bs = (orderList bs as).swap := by
  induction as generalizing bs with
  | nil => cases bs <;> rfl
  | cons a as ih =>
    cases bs with
    | nil => rfl
    | cons b bs =>
      obtain ⟨ha, has⟩ := List.forall_mem_cons.mp h
      rw [orderList, orderList, Ordering.swap_then, ← ha b, ← ih has]

variable [Std.TransCmp (Scalar.order (α := α))]

theorem order_swap (a b : Expr α) : order a b = (order b a).swap := by
  induction a generalizing b with
  | num v =>
    cases b with
    | num w =>
      rw [order, order]
      exact Std.OrientedCmp.eq_swap
    | _ => rfl
  | sym s =>
    cases b with
    | sym t => exact Symbol.order_swap s t
    | _ => rfl
  | sum ts ih =>
    cases b with
    | sum us => exact orderList_swap ih
    | _ => rfl
  | product fs ih =>
    cases b with
    | product gs => exact orderList_swap ih
    | _ => rfl
  | power x e hx he =>
    cases b with
    | power y d => rw [order, order, Ordering.swap_then, ← hx, ← he]
    | _ => rfl
  | call f as ih =>
    cases b with
    | call g bs => rw [order, order, Ordering.swap_then, ← orderList_swap ih, ← Std.OrientedCmp.eq_swap]
    | _ => rfl
  | apply f as ih =>
    cases b with
    | apply g bs => rw [order, order, Ordering.swap_then, ← orderList_swap ih, ← Std.OrientedCmp.eq_swap]
    | _ => rfl
  | compare p x y hx hy =>
    cases b with
    | compare q u v =>
      rw [order, order, Ordering.swap_then, Ordering.swap_then, ← hx, ← hy, ← Std.OrientedCmp.eq_swap]
    | _ => rfl
  | select c x y hc hx hy =>
    cases b with
    | select d u v => rw [order, order, Ordering.swap_then, Ordering.swap_then, ← hc, ← hx, ← hy]
    | _ => rfl
  | derivative x s ih =>
    cases b with
    | derivative y t => rw [order, order, Ordering.swap_then, ← ih, ← Symbol.order_swap]
    | _ => rfl
  | integral x s ih =>
    cases b with
    | integral y t => rw [order, order, Ordering.swap_then, ← ih, ← Symbol.order_swap]
    | _ => rfl

omit [Std.TransCmp (Scalar.order (α := α))] in
/-- It is enough to look at expressions of one kind. -/
theorem order_lt_trans_of_rank_eq {a : Expr α}
    (h : ∀ b c, b.rank = a.rank → c.rank = a.rank → order a b = .lt → order b c = .lt → order a c = .lt)
    (b c : Expr α) (hab : order a b = .lt) (hbc : order b c = .lt) : order a c = .lt := by
  have left := rank_le_of_order_eq_lt hab
  have right := rank_le_of_order_eq_lt hbc
  by_cases kind : a.rank < c.rank
  · exact order_eq_lt_of_rank_lt kind
  · exact h b c (by omega) (by omega) hab hbc

variable [Std.LawfulEqCmp (Scalar.order (α := α))]

omit [Std.TransCmp (Scalar.order (α := α))] in
theorem orderList_lt_trans {as bs cs : List (Expr α)}
    (h : ∀ a ∈ as, ∀ b c, order a b = .lt → order b c = .lt → order a c = .lt)
    (hab : orderList as bs = .lt) (hbc : orderList bs cs = .lt) : orderList as cs = .lt := by
  induction as generalizing bs cs with
  | nil =>
    cases cs with
    | nil => cases bs <;> cases hbc
    | cons c cs => rfl
  | cons a as ih =>
    cases bs with
    | nil => cases hab
    | cons b bs =>
      cases cs with
      | nil => cases hbc
      | cons c cs =>
        obtain ⟨ha, has⟩ := List.forall_mem_cons.mp h
        exact then_lt_trans (ha b c) (ih has) hab hbc

theorem order_lt_trans (a b c : Expr α) : order a b = .lt → order b c = .lt → order a c = .lt := by
  -- Each case is left with three expressions of its kind, which are compared part by part.
  induction a generalizing b c with
  | num v =>
    refine order_lt_trans_of_rank_eq (fun b c hb hc hab hbc => ?_) b c
    cases b <;> cases hb
    cases c <;> cases hc
    rw [order] at *
    exact Std.TransCmp.lt_trans hab hbc
  | sym s =>
    refine order_lt_trans_of_rank_eq (fun b c hb hc hab hbc => ?_) b c
    cases b <;> cases hb
    cases c <;> cases hc
    exact Symbol.order_lt_trans hab hbc
  | sum ts ih | product ts ih =>
    refine order_lt_trans_of_rank_eq (fun b c hb hc hab hbc => ?_) b c
    cases b <;> cases hb
    cases c <;> cases hc
    exact orderList_lt_trans ih hab hbc
  | power x e hx he =>
    refine order_lt_trans_of_rank_eq (fun b c hb hc hab hbc => ?_) b c
    cases b <;> cases hb
    cases c <;> cases hc
    exact then_lt_trans (hx _ _) (he _ _) hab hbc
  | call f as ih | apply f as ih =>
    refine order_lt_trans_of_rank_eq (fun b c hb hc hab hbc => ?_) b c
    cases b <;> cases hb
    cases c <;> cases hc
    exact then_lt_trans Std.TransCmp.lt_trans (orderList_lt_trans ih) hab hbc
  | compare p x y hx hy =>
    refine order_lt_trans_of_rank_eq (fun b c hb hc hab hbc => ?_) b c
    cases b <;> cases hb
    cases c <;> cases hc
    rw [order, Ordering.then_assoc] at *
    exact then_lt_trans Std.TransCmp.lt_trans (then_lt_trans (hx _ _) (hy _ _)) hab hbc
  | select d x y hd hx hy =>
    refine order_lt_trans_of_rank_eq (fun b c hb hc hab hbc => ?_) b c
    cases b <;> cases hb
    cases c <;> cases hc
    rw [order, Ordering.then_assoc] at *
    exact then_lt_trans (hd _ _) (then_lt_trans (hx _ _) (hy _ _)) hab hbc
  | derivative x s ih | integral x s ih =>
    refine order_lt_trans_of_rank_eq (fun b c hb hc hab hbc => ?_) b c
    cases b <;> cases hb
    cases c <;> cases hc
    exact then_lt_trans (ih _ _) Symbol.order_lt_trans hab hbc

/-- The order on expressions is total. -/
instance : Std.TransCmp (order (α := α)) := transCmp_of_lt_trans order_swap order_lt_trans

/-! ## Sorting -/

/-- The expressions are in their order; equal ones may stand next to each other. -/
def Sorted (es : List (Expr α)) : Prop := es.Pairwise fun a b => (order a b).isLE = true

theorem sorted_sort (es : List (Expr α)) : Sorted (sort es) := by
  refine pairwise_sortBy (fun a b behind => ?_) (fun a b c => Std.TransCmp.isLE_trans) es
  rw [Ordering.isLE_eq_false] at behind
  rw [Std.OrientedCmp.lt_of_gt behind]
  rfl

/-- There is only one sorted arrangement. -/
theorem Sorted.sort_eq {es es' : List (Expr α)} (h : Sorted es') (perm : es.Perm es') : sort es = es' := by
  refine List.Perm.eq_of_pairwise (fun a b _ _ hab hba => ?_) (sorted_sort es) h
    ((sortBy_perm _ es).trans perm)
  exact Std.LawfulEqCmp.eq_of_compare (Std.OrientedCmp.isLE_antisymm hab hba)

theorem Sorted.sort_eq_self {es : List (Expr α)} (h : Sorted es) : sort es = es :=
  h.sort_eq (List.Perm.refl es)

theorem sort_eq_of_perm {es es' : List (Expr α)} (perm : es.Perm es') : sort es = sort es' :=
  (sorted_sort es').sort_eq (perm.trans (sortBy_perm _ es').symm)

end Expr

end AnalogCircuit
