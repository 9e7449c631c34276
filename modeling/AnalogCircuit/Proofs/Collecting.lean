import AnalogCircuit.Proofs.Product
import AnalogCircuit.Proofs.Sorted
/-!
# Collecting by key

What sums and products have in common: they enter their parts one by one into a list of entries, each under the key
of the part. The keys of the entries stay sorted, so no key comes twice. If no two parts have the same key, the
entries are those of the single parts. The order of the parts does not matter if the changes to one entry commute, as
those by the terms of a sum do.
-/

namespace AnalogCircuit.Expr

variable {α β ι : Type} [Scalar α]

/-- Enters several parts, each by its key and by what it does to the entry there. -/
def collect (d : β) (key : ι → Expr α) (change : ι → β → β) (xs : List ι) (l : List (Expr α × β)) :
    List (Expr α × β) :=
  xs.foldl (fun l x => adjust d (key x) (change x) l) l

variable {d : β} {key : ι → Expr α} {change : ι → β → β} {xs : List ι} {l : List (Expr α × β)}

section

variable [Std.LawfulEqCmp (Scalar.order (α := α))]

/-- What holds of the entries and is kept by every part holds of what is collected. -/
theorem forall_mem_collect {P : Expr α × β → Prop} (old : ∀ p ∈ l, P p)
    (new : ∀ x ∈ xs, P (key x, change x d)) (kept : ∀ x ∈ xs, ∀ v, P (key x, v) → P (key x, change x v)) :
    ∀ p ∈ collect d key change xs l, P p := by
  induction xs generalizing l with
  | nil => exact old
  | cons x xs ih =>
    obtain ⟨newHead, newTail⟩ := List.forall_mem_cons.mp new
    obtain ⟨keptHead, keptTail⟩ := List.forall_mem_cons.mp kept
    refine ih ?_ newTail keptTail
    rcases adjust_eq d (key x) (change x) l with ⟨l₁, v, l₂, rfl, h⟩ | ⟨l₁, l₂, rfl, h⟩ <;>
      simp only [h, List.forall_mem_append, List.forall_mem_cons] at old ⊢
    · exact ⟨old.1, keptHead v old.2.1, old.2.2⟩
    · exact ⟨old.1, newHead, old.2⟩

/-- A new key gets an entry of its own. -/
theorem adjust_perm {k : Expr α} (f : β → β) (new : k ∉ l.map (·.1)) :
    (adjust d k f l).Perm ((k, f d) :: l) := by
  rcases adjust_eq d k f l with ⟨l₁, v, l₂, rfl, -⟩ | ⟨l₁, l₂, rfl, h⟩
  · exact absurd (List.mem_map.mpr ⟨(k, v), by simp, rfl⟩) new
  · rw [h]
    exact List.perm_middle

/-- Parts with different keys have entries of their own. -/
theorem collect_perm (distinct : (xs.map key).Nodup) (new : ∀ x ∈ xs, key x ∉ l.map (·.1)) :
    (collect d key change xs l).Perm (xs.map (fun x => (key x, change x d)) ++ l) := by
  induction xs generalizing l with
  | nil => exact List.Perm.refl l
  | cons x xs ih =>
    obtain ⟨head, tail⟩ := List.nodup_cons.mp distinct
    obtain ⟨hx, hxs⟩ := List.forall_mem_cons.mp new
    have first := adjust_perm (d := d) (change x) hx
    refine (ih tail fun y hy hm => ?_).trans ?_
    · rcases List.mem_cons.mp ((first.map (·.1)).mem_iff.mp hm) with same | old
      · exact head (List.mem_map.mpr ⟨y, hy, same⟩)
      · exact hxs y hy old
    · exact (first.append_left _).trans List.perm_middle

theorem collect_nil_perm (distinct : (xs.map key).Nodup) :
    (collect d key change xs []).Perm (xs.map fun x => (key x, change x d)) := by
  rw [← List.append_nil (List.map _ xs)]
  exact collect_perm distinct fun _ _ => List.not_mem_nil

end

section

variable [Std.TransCmp (Scalar.order (α := α))] [Std.LawfulEqCmp (Scalar.order (α := α))]

/-- The keys of the entries are in their order, none twice. -/
def Keyed (l : List (Expr α × β)) : Prop := l.Pairwise fun p q => order p.1 q.1 = .lt

theorem Keyed.adjust (h : Keyed l) (k : Expr α) (f : β → β) : Keyed (adjust d k f l) := by
  induction l with
  | nil => exact List.pairwise_singleton _ _
  | cons p rest ih =>
    obtain ⟨k', v⟩ := p
    obtain ⟨first, others⟩ := List.pairwise_cons.mp h
    unfold Expr.adjust
    split
    · next before =>
      refine List.pairwise_cons.mpr ⟨fun q hq => ?_, h⟩
      rcases List.mem_cons.mp hq with rfl | hq
      · exact before
      · exact Std.TransCmp.lt_trans before (first q hq)
    · next here => exact List.pairwise_cons.mpr ⟨first, others⟩
    · next behind =>
      refine List.pairwise_cons.mpr ⟨fun q hq => ?_, ih others⟩
      rcases mem_adjust hq with new | ⟨r, hr, old⟩
      · rw [new]
        exact Std.OrientedCmp.lt_of_gt behind
      · rw [← old]
        exact first r hr

theorem Keyed.collect (h : Keyed l) : Keyed (collect d key change xs l) := by
  induction xs generalizing l with
  | nil => exact h
  | cons x xs ih => exact ih (h.adjust (key x) (change x))

omit [Std.TransCmp (Scalar.order (α := α))] in
theorem Keyed.nodup (h : Keyed l) : (l.map (·.1)).Nodup := by
  refine List.Pairwise.map _ (fun p q before => ?_) h
  rintro same
  rw [same] at before
  cases Std.ReflCmp.compare_self.symm.trans before

end

/-! ## The order of the parts -/

section

variable [Std.TransCmp (Scalar.order (α := α))] [Std.LawfulEqCmp (Scalar.order (α := α))]

omit [Std.TransCmp (Scalar.order (α := α))] in
/-- Two parts with one key make one change to the entry there. -/
theorem adjust_adjust (d : β) (k : Expr α) (f g : β → β) (l : List (Expr α × β)) :
    adjust d k f (adjust d k g l) = adjust d k (fun v => f (g v)) l := by
  have same : order k k = .eq := order_eq_iff.mpr rfl
  induction l with
  | nil => simp [adjust, same]
  | cons p rest ih =>
    obtain ⟨q, v⟩ := p
    cases place : order k q <;> simp [adjust, place, ih, same]

/-- Two parts with different keys change different entries. -/
theorem adjust_comm_of_lt {k k' : Expr α} (before : order k k' = .lt) (d : β) (f f' : β → β) (l : List (Expr α × β)) :
    adjust d k f (adjust d k' f' l) = adjust d k' f' (adjust d k f l) := by
  have behind : order k' k = .gt := Std.OrientedCmp.gt_of_lt before
  -- the entry of `k` comes in front of that of `k'`, so the place of `k'` decides
  induction l with
  | nil => simp [adjust, before, behind]
  | cons p rest ih =>
    obtain ⟨q, v⟩ := p
    cases place' : order k' q with
    | lt =>
      have place : order k q = .lt := Std.TransCmp.lt_trans before place'
      simp [adjust, place, place', before, behind]
    | eq =>
      have place : order k q = .lt := order_eq_iff.mp place' ▸ before
      simp [adjust, place, place', behind]
    | gt => cases place : order k q <;> simp [adjust, place, place', behind, ih]

/-- Parts may change places if those with one key make changes that may. -/
theorem adjust_comm {k k' : Expr α} (d : β) {f f' : β → β} (h : k = k' → ∀ v, f (f' v) = f' (f v))
    (l : List (Expr α × β)) : adjust d k f (adjust d k' f' l) = adjust d k' f' (adjust d k f l) := by
  cases place : order k k' with
  | lt => exact adjust_comm_of_lt place d f f' l
  | eq =>
    obtain rfl := order_eq_iff.mp place
    rw [adjust_adjust, adjust_adjust]
    exact congrArg (adjust d k · l) (funext (h rfl))
  | gt => exact (adjust_comm_of_lt (Std.OrientedCmp.lt_of_gt place) d f' f l).symm

/-- What is collected does not depend on the order of the parts. -/
theorem collect_eq_of_perm (h : ∀ x y v, change x (change y v) = change y (change x v)) {ys : List ι}
    (perm : xs.Perm ys) : collect d key change xs l = collect d key change ys l :=
  perm.foldl_eq' (fun x _ y _ _ => adjust_comm d (fun _ => h y x) _) l

end

/-! ## Terms and factors -/

theorem collectTerms_eq_collect (ts : List (Expr α)) :
    collectTerms ts = collect 0 (·.splitCoefficient.2) (fun t => (t.splitCoefficient.1 + ·))
      (ts.filter (·.constant?.isNone)) [] := collectTerms_eq ts

theorem collectFactors_eq_collect (fs : List (Expr α)) :
    collectFactors fs = collect [] (·.basePower.1) (fun f => (· ++ [f.basePower.2]))
      (fs.filter (·.constant?.isNone)) [] := collectFactors_eq fs

section

variable [Std.LawfulEqCmp (Scalar.order (α := α))]

/-- What holds of the terms behind their coefficients holds of those that are collected. -/
theorem forall_mem_collectTerms {P : Expr α → Prop} {ts : List (Expr α)}
    (h : ∀ t ∈ ts, t.constant? = none → P t.splitCoefficient.2) : ∀ p ∈ collectTerms ts, P p.1 := by
  have h : ∀ t ∈ ts.filter (·.constant?.isNone), P t.splitCoefficient.2 := by
    intro t ht
    obtain ⟨mem, variable'⟩ := List.mem_filter.mp ht
    exact h t mem (Option.isNone_iff_eq_none.mp variable')
  rw [collectTerms_eq_collect]
  exact forall_mem_collect (by simp) h fun _ _ _ kept => kept

/-- What holds of the bases of the factors holds of those that are collected, and likewise for the exponents. -/
theorem forall_mem_collectFactors {P Q : Expr α → Prop} {fs : List (Expr α)}
    (h : ∀ f ∈ fs, f.constant? = none → P f.basePower.1 ∧ Q f.basePower.2) :
    ∀ g ∈ collectFactors fs, P g.1 ∧ ∀ x ∈ g.2, Q x := by
  have h : ∀ f ∈ fs.filter (·.constant?.isNone), P f.basePower.1 ∧ Q f.basePower.2 := by
    intro f hf
    obtain ⟨mem, variable'⟩ := List.mem_filter.mp hf
    exact h f mem (Option.isNone_iff_eq_none.mp variable')
  rw [collectFactors_eq_collect]
  refine forall_mem_collect (by simp) (fun f hf => ?_) fun f hf xs kept => ?_
  · simpa using h f hf
  · exact ⟨kept.1, List.forall_mem_append.mpr ⟨kept.2, List.forall_mem_singleton.mpr (h f hf).2⟩⟩

/-- Terms that differ in more than their coefficients are collected one by one. -/
theorem collectTerms_perm {ts : List (Expr α)}
    (distinct : ((ts.filter (·.constant?.isNone)).map (·.splitCoefficient.2)).Nodup) :
    (collectTerms ts).Perm
      ((ts.filter (·.constant?.isNone)).map fun t => (t.splitCoefficient.2, t.splitCoefficient.1 + 0)) := by
  rw [collectTerms_eq_collect]
  exact collect_nil_perm distinct

/-- Factors with different bases are collected one by one. -/
theorem collectFactors_perm {fs : List (Expr α)}
    (distinct : ((fs.filter (·.constant?.isNone)).map (·.basePower.1)).Nodup) :
    (collectFactors fs).Perm
      ((fs.filter (·.constant?.isNone)).map fun f => (f.basePower.1, [f.basePower.2])) := by
  rw [collectFactors_eq_collect]
  exact collect_nil_perm distinct

variable [Std.TransCmp (Scalar.order (α := α))]

theorem keyed_collectTerms (ts : List (Expr α)) : Keyed (collectTerms ts) :=
  collectTerms_eq_collect ts ▸ Keyed.collect List.Pairwise.nil

theorem keyed_collectFactors (fs : List (Expr α)) : Keyed (collectFactors fs) :=
  collectFactors_eq_collect fs ▸ Keyed.collect List.Pairwise.nil

end

section

variable {α : Type} [ExactScalar α] [Std.TransCmp (Scalar.order (α := α))]

/-- The canonical sum does not depend on the order of the terms. -/
theorem mkSum_eq_of_perm {es es' : List (Expr α)} (perm : es.Perm es') : mkSum es = mkSum es' := by
  have terms : (termsList es).Perm (termsList es') := by
    rw [termsList_eq_flatMap, termsList_eq_flatMap]
    exact perm.flatMap_right _
  have like : collectTerms (termsList es) = collectTerms (termsList es') := by
    rw [collectTerms_eq_collect, collectTerms_eq_collect]
    exact collect_eq_of_perm (fun t u v => add_left_comm t.splitCoefficient.1 u.splitCoefficient.1 v) (terms.filter _)
  have constant : ((termsList es).filterMap constant?).foldl (· + ·) (0 : α) =
      ((termsList es').filterMap constant?).foldl (· + ·) 0 := by
    rw [← List.sum_eq_foldl, ← List.sum_eq_foldl]
    exact (terms.filterMap _).sum_eq
  rw [mkSum_eq, mkSum_eq]
  unfold summands
  dsimp only
  rw [like, constant]

end

end AnalogCircuit.Expr
