import AnalogCircuit.Proofs.Collecting
import AnalogCircuit.Proofs.Doubles
import AnalogCircuit.Program.Emission
/-!
# What is looked up by an expression

The entries of sums and products, sorting, and the values computed before are all found by an expression. Since the
order is total and tells different trees apart, what is found under a tree is what was entered under that very tree:
the coefficients of one term add up and those of no other, and a register is found again for the same expression only.
-/

namespace AnalogCircuit.Expr

variable {α β ι : Type} [Scalar α]

/-- What several parts leave in the entry of one key, if there are any. -/
def entry (d : β) (change : ι → β → β) (xs : List ι) : Option β :=
  xs.foldl (fun v? x => some (change x (v?.getD d))) none

/-- The terms that differ from `k` in the coefficient only. -/
def likeTerms (k : Expr α) (ts : List (Expr α)) : List (Expr α) :=
  ts.filter fun t => t.constant?.isNone && t.splitCoefficient.2 == k

/-- The factors that are powers of `k`. -/
def likeFactors (k : Expr α) (fs : List (Expr α)) : List (Expr α) :=
  fs.filter fun f => f.constant?.isNone && f.basePower.1 == k

variable [Std.TransCmp (Scalar.order (α := α))] [Std.LawfulEqCmp (Scalar.order (α := α))]

/-! ## Entries -/

section

omit [Std.TransCmp (Scalar.order (α := α))]

theorem lookup_cons_of_ne {k q : Expr α} (different : k ≠ q) (v : β) (l : List (Expr α × β)) :
    ((q, v) :: l).lookup k = l.lookup k := by
  rw [List.lookup_cons, beq_eq_false_iff_ne.mpr different]

/-- A key in front of all others has no entry. -/
theorem lookup_eq_none_of_lt {k : Expr α} {l : List (Expr α × β)} (h : ∀ p ∈ l, order k p.1 = .lt) :
    l.lookup k = none := by
  rw [List.lookup_eq_none_iff]
  intro p hp
  have before := h p hp
  have different : k ≠ p.1 := by
    intro same
    rw [order_eq_iff.mpr same] at before
    cases before
  simpa using different

/-- Entering a part leaves the entries of other keys alone. -/
theorem lookup_adjust_of_ne {d : β} {k k' : Expr α} {f : β → β} (different : k' ≠ k) (l : List (Expr α × β)) :
    (adjust d k f l).lookup k' = l.lookup k' := by
  induction l with
  | nil => exact lookup_cons_of_ne different _ _
  | cons p rest ih =>
    obtain ⟨q, v⟩ := p
    cases place : order k q with
    | lt => simp only [adjust, place, lookup_cons_of_ne different]
    | eq =>
      obtain rfl := order_eq_iff.mp place
      simp only [adjust, place, lookup_cons_of_ne different]
    | gt => simp only [adjust, place, List.lookup_cons, ih]

end

/-- Entering a part changes the entry of its key. -/
theorem lookup_adjust_self {d : β} {k : Expr α} {f : β → β} {l : List (Expr α × β)} (h : Keyed l) :
    (adjust d k f l).lookup k = some (f ((l.lookup k).getD d)) := by
  induction l with
  | nil => simp [adjust]
  | cons p rest ih =>
    obtain ⟨q, v⟩ := p
    obtain ⟨first, others⟩ := List.pairwise_cons.mp h
    cases place : order k q with
    | lt =>
      have absent : ((q, v) :: rest).lookup k = none := by
        refine lookup_eq_none_of_lt (List.forall_mem_cons.mpr ⟨place, fun p hp => ?_⟩)
        exact Std.TransCmp.lt_trans place (first p hp)
      simp [adjust, place, absent]
    | eq =>
      obtain rfl := order_eq_iff.mp place
      simp [adjust, place]
    | gt =>
      have different : k ≠ q := by
        rintro rfl
        cases (order_eq_iff.mpr rfl).symm.trans place
      simp only [adjust, place, lookup_cons_of_ne different, ih others]

/-- The entry of a key comes from the parts with this key. -/
theorem lookup_collect {d : β} {key : ι → Expr α} {change : ι → β → β} (xs : List ι) (k : Expr α) :
    (collect d key change xs []).lookup k = entry d change (xs.filter (key · == k)) := by
  suffices from_l : ∀ l, Keyed l → (collect d key change xs l).lookup k =
      (xs.filter (key · == k)).foldl (fun v? x => some (change x (v?.getD d))) (l.lookup k) from
    from_l [] List.Pairwise.nil
  induction xs with
  | nil => exact fun l _ => rfl
  | cons x xs ih =>
    intro l h
    rw [collect, List.foldl_cons, ← collect, ih _ (h.adjust (key x) (change x))]
    by_cases here : key x = k
    · subst here
      rw [lookup_adjust_self h, List.filter_cons_of_pos (by simp), List.foldl_cons]
    · rw [lookup_adjust_of_ne (Ne.symm here), List.filter_cons_of_neg (by simpa using here)]

theorem lookup_collectTerms (ts : List (Expr α)) (k : Expr α) :
    (collectTerms ts).lookup k = entry 0 (fun t c => t.splitCoefficient.1 + c) (likeTerms k ts) := by
  rw [collectTerms_eq_collect, lookup_collect, List.filter_filter]
  simp only [likeTerms, Bool.and_comm]

theorem lookup_collectFactors (fs : List (Expr α)) (k : Expr α) :
    (collectFactors fs).lookup k = entry [] (fun f es => es ++ [f.basePower.2]) (likeFactors k fs) := by
  rw [collectFactors_eq_collect, lookup_collect, List.filter_filter]
  simp only [likeFactors, Bool.and_comm]

/-! ## Sorting -/

/-- Lists are sorted into the same one exactly if they have the same elements, each as often. -/
theorem sort_eq_iff_perm {es es' : List (Expr α)} : sort es = sort es' ↔ es.Perm es' := by
  refine ⟨fun same => ?_, sort_eq_of_perm⟩
  have sorted : (sort es).Perm es' := same ▸ sortBy_perm _ es'
  exact (sortBy_perm _ es).symm.trans sorted

/-! ## Values computed before -/

omit [Std.TransCmp (Scalar.order (α := α))] in
theorem hash_eq_of_beq {a b : Expr α} (h : (a == b) = true) : a.hash = b.hash :=
  congrArg hash (eq_of_beq h)

instance : LawfulHashable (Expr α) := ⟨fun _ _ => hash_eq_of_beq⟩

end AnalogCircuit.Expr

namespace AnalogCircuit.Emission

variable {α : Type} [Scalar α] [Std.LawfulEqCmp (Scalar.order (α := α))]

/-- A hash table of the expressions of which the registers are known, the latest entered last. -/
def table (s : Emission α) : Std.HashMap (Expr α) Reg := s.computed.foldr (fun c t => t.insert c.1 c.2) ∅

theorem getElem?_table (s : Emission α) (e : Expr α) : s.table[e]? = s.register? e := by
  unfold table register?
  induction s.computed with
  | nil => simp
  | cons c computed ih =>
    rw [List.foldr_cons, Std.HashMap.getElem?_insert, ih, List.find?_cons]
    cases c.1 == e <;> rfl

omit [Std.LawfulEqCmp (Scalar.order (α := α))] in
theorem register?_remember (s : Emission α) (a b : Expr α) (r : Reg) :
    (s.remember a r).register? b = if a == b then some r else s.register? b := by
  unfold register? remember
  rw [List.find?_cons]
  cases a == b <;> rfl

end AnalogCircuit.Emission

namespace AnalogCircuit.Expr

/-! ## The order identifies terms -/

/-- The order on expressions over `α` is total, tells different trees apart, and what is found by it under a tree
belongs to that tree. -/
structure OrderLaws (α : Type) [Scalar α] : Prop where
  swap (a b : Expr α) : order a b = (order b a).swap
  trans (a b c : Expr α) : (order a b).isLE → (order b c).isLE → (order a c).isLE
  total (a b : Expr α) : (order a b).isLE ∨ (order b a).isLE
  antisymm (a b : Expr α) : (order a b).isLE → (order b a).isLE → a = b
  eq_iff (a b : Expr α) : order a b = .eq ↔ a = b
  beq_iff (a b : Expr α) : (a == b) = true ↔ a = b
  hash_eq (a b : Expr α) : (a == b) = true → a.hash = b.hash
  /-- The coefficient that a sum collects for `k` is made up of those of the terms `k`. -/
  coefficient (ts : List (Expr α)) (k : Expr α) :
    (collectTerms ts).lookup k = entry 0 (fun t c => t.splitCoefficient.1 + c) (likeTerms k ts)
  /-- The exponents that a product collects for `k` are those of the powers of `k`. -/
  exponents (fs : List (Expr α)) (k : Expr α) :
    (collectFactors fs).lookup k = entry [] (fun f es => es ++ [f.basePower.2]) (likeFactors k fs)
  /-- Sorting identifies the lists with the same elements, each as often. -/
  sort_iff (es es' : List (Expr α)) : sort es = sort es' ↔ es.Perm es'
  /-- A register is found for the expression under which it was entered last, in the list as in a hash table. -/
  remembered (s : Emission α) (a b : Expr α) (r : Reg) :
    (s.remember a r).register? b = if a == b then some r else s.register? b
  hashed (s : Emission α) (e : Expr α) : s.table[e]? = s.register? e

/-- All that is asked of the numbers is that their own order is total and tells different ones apart. -/
theorem order_lawful {α : Type} [Scalar α] [Std.TransCmp (Scalar.order (α := α))]
    [Std.LawfulEqCmp (Scalar.order (α := α))] : OrderLaws α where
  swap := order_swap
  trans _ _ _ := Std.TransCmp.isLE_trans
  total a b := by
    cases place : order a b with
    | lt | eq => exact .inl rfl
    | gt => exact .inr (by rw [Std.OrientedCmp.lt_of_gt place]; rfl)
  antisymm _ _ hab hba := order_eq_iff.mp (Std.OrientedCmp.isLE_antisymm hab hba)
  eq_iff _ _ := order_eq_iff
  beq_iff _ _ := beq_iff_eq
  hash_eq _ _ := hash_eq_of_beq
  coefficient := lookup_collectTerms
  exponents := lookup_collectFactors
  sort_iff _ _ := sort_eq_iff_perm
  remembered := Emission.register?_remember
  hashed := Emission.getElem?_table

/-- Constants that are doubles are told apart by their bits: minus zero comes before zero. -/
theorem order_lawful_double :
    OrderLaws Double ∧ (∀ v w : Double, order (num v) (num w) = .eq ↔ v.bits = w.bits) ∧
      order (num (-0 : Double)) (num 0) = .lt := by
  have laws : OrderLaws Double := order_lawful
  refine ⟨laws, fun v w => ?_, by decide +kernel⟩
  rw [laws.eq_iff, num.injEq, Double.mk.injEq]

end AnalogCircuit.Expr
