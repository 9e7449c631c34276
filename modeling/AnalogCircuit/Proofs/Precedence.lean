import AnalogCircuit.Proofs.Row
/-!
# The order of eliminated unknowns

Once an unknown is eliminated, no row that is left mentions it, provided that its own value does not. So the value
of an unknown mentions none that was eliminated before; since assignments are in the opposite order, it mentions
none that is assigned later.
-/

namespace AnalogCircuit.Partition

open Expr

variable {α : Type} [ExactScalar α] {U : Symbol → Bool} {nominal : Symbol → Option α}
  {e : Elimination α} {u : Symbol}

/-- No row that is left mentions an eliminated unknown, and no value mentions one that was eliminated before. -/
structure Triangular (unknown : Symbol → Bool) (e : Elimination α) : Prop where
  rows : ∀ r ∈ e.rows, IsRow unknown r
  values : ∀ a ∈ e.eliminated, unknown a.unknown = true ∧ IsRow unknown a.value
  free : ∀ a ∈ e.eliminated, ∀ r ∈ e.rows, r.contains a.unknown = false
  ordered : e.eliminated.Pairwise fun a b =>
    a.unknown ≠ b.unknown ∧ b.value.contains a.unknown = false

/-- Eliminating an unknown whose value does not mention it keeps the order. -/
theorem Triangular.step (h : Triangular U e) (hu : U u = true)
    (own : ∀ i row, pivot? nominal u e.rows = some (i, row) → (solveFor u row).contains u = false) :
    Triangular U (e.step nominal u) := by
  unfold Elimination.step
  split
  · exact ⟨h.rows, h.values, h.free, h.ordered⟩
  next i row found =>
  obtain ⟨pivot, others⟩ := (forall_rows_iff found).mp h.rows
  have solution := isRow_solveFor hu pivot
  have earlier (a : Assignment α) (ha : a ∈ e.eliminated) :
      a.unknown ≠ u ∧ (solveFor u row).contains a.unknown = false := by
    have free := ((forall_rows_iff found).mp (h.free a ha)).1
    refine ⟨?_, contains_solveFor hu pivot free⟩
    rintro rfl
    cases free.symm.trans (contains_of_pivot? found)
  refine ⟨?_, ?_, ?_, ?_⟩
  · exact List.forall_mem_map.mpr fun r hr => isRow_replaceIn hu solution (others r hr)
  · exact List.forall_mem_append.mpr ⟨h.values, List.forall_mem_singleton.mpr ⟨hu, solution⟩⟩
  · refine List.forall_mem_append.mpr ⟨fun a ha => ?_, List.forall_mem_singleton.mpr ?_⟩
    · exact List.forall_mem_map.mpr fun r hr =>
        contains_replaceIn (earlier a ha).2 (.inl (h.free a ha r (List.mem_of_mem_eraseIdx hr)))
    · exact List.forall_mem_map.mpr fun r _ => contains_replaceIn (own i row found) (.inr rfl)
  · rw [List.pairwise_append]
    refine ⟨h.ordered, List.pairwise_singleton _ _, fun a ha b hb => ?_⟩
    rw [List.mem_singleton.mp hb]
    exact earlier a ha

omit [ExactScalar α] in
/-- What is eliminated stays eliminated. -/
theorem eliminated_grows [Scalar α] {nominal : Symbol → Option α} (us : List Symbol)
    (e : Elimination α) : e.eliminated <+: (us.foldl (Elimination.step nominal) e).eliminated := by
  induction us generalizing e with
  | nil => exact List.prefix_rfl
  | cons u us ih =>
    refine List.IsPrefix.trans ?_ (ih (e.step nominal u))
    unfold Elimination.step
    split
    · exact List.prefix_rfl
    · exact List.prefix_append _ _

/-- Eliminating several unknowns keeps the order if in the end no value mentions its own unknown. -/
theorem Triangular.foldl {us : List Symbol} (h : Triangular U e) (hus : ∀ u ∈ us, U u = true)
    (own : ∀ a ∈ (us.foldl (Elimination.step nominal) e).eliminated,
      a.value.contains a.unknown = false) :
    Triangular U (us.foldl (Elimination.step nominal) e) := by
  induction us generalizing e with
  | nil => exact h
  | cons u us ih =>
    obtain ⟨hu, hus⟩ := List.forall_mem_cons.mp hus
    refine ih (h.step hu fun i row found => ?_) hus own
    refine own ⟨u, solveFor u row⟩ ((eliminated_grows us (e.step nominal u)).subset ?_)
    unfold Elimination.step
    rw [found]
    exact List.mem_append_right _ (List.mem_singleton.mpr rfl)

/-! ## Putting values in -/

theorem isRow_putIn {as : List (Assignment α)} {r : Expr α}
    (values : ∀ a ∈ as, U a.unknown = true ∧ IsRow U a.value) (h : IsRow U r) :
    IsRow U (putIn as r) := by
  unfold putIn
  induction as generalizing r with
  | nil => exact h
  | cons a as ih =>
    obtain ⟨⟨hu, ha⟩, has⟩ := List.forall_mem_cons.mp values
    exact ih has (isRow_replaceIn hu ha h)

/-- When values have been put in in the order of elimination, no eliminated unknown is left. -/
theorem contains_putIn {as : List (Assignment α)} {r : Expr α}
    (own : ∀ a ∈ as, a.value.contains a.unknown = false)
    (ordered : as.Pairwise fun a b => b.value.contains a.unknown = false) {s : Symbol}
    (h : r.contains s = false ∧ (∀ a ∈ as, a.value.contains s = false) ∨ ∃ a ∈ as, a.unknown = s) :
    (putIn as r).contains s = false := by
  unfold putIn
  induction as generalizing r with
  | nil =>
    rcases h with ⟨h, -⟩ | ⟨a, ha, -⟩
    · exact h
    · exact absurd ha List.not_mem_nil
  | cons a as ih =>
    obtain ⟨own_a, own⟩ := List.forall_mem_cons.mp own
    obtain ⟨later, ordered⟩ := List.pairwise_cons.mp ordered
    refine ih own ordered ?_
    rcases h with ⟨hr, has⟩ | ⟨b, hb, rfl⟩
    · obtain ⟨ha, has⟩ := List.forall_mem_cons.mp has
      exact .inl ⟨contains_replaceIn ha (.inl hr), has⟩
    · rcases List.mem_cons.mp hb with rfl | hb
      · exact .inl ⟨contains_replaceIn own_a (.inr rfl), later⟩
      · exact .inr ⟨b, hb, rfl⟩

/-! ## Partitions -/

/-- If no assigned value mentions its own unknown, then no value mentions an unknown that is assigned later, and no
residual mentions an assigned one. -/
theorem precedence {unknowns : List Symbol} {residuals : List (Expr α)} {p : Partition α}
    (found : ofResiduals unknowns residuals nominal = .ok p)
    (rows : ∀ r ∈ residuals, IsRow (unknowns.contains ·) r)
    (own : ∀ a ∈ p.assignments, a.value.contains a.unknown = false) :
    (∀ a ∈ p.assignments, a.unknown ∈ unknowns ∧ IsRow (unknowns.contains ·) a.value) ∧
    (∀ r ∈ p.residuals, IsRow (unknowns.contains ·) r ∧
      ∀ a ∈ p.assignments, r.contains a.unknown = false) ∧
    p.assignments.Pairwise fun a b =>
      a.unknown ≠ b.unknown ∧ a.value.contains b.unknown = false := by
  obtain ⟨assignments, rest, -, -⟩ := ofResiduals_eq_ok found
  have began : Triangular (unknowns.contains ·) (start unknowns residuals) :=
    ⟨fun r hr => rows r (List.mem_filter.mp hr).1, fun _ h => absurd h List.not_mem_nil,
      fun _ h => absurd h List.not_mem_nil, List.Pairwise.nil⟩
  simp only [assignments, List.mem_reverse] at own ⊢
  have ended : Triangular (unknowns.contains ·) (eliminated unknowns residuals nominal) :=
    began.foldl (fun u hu => List.contains_iff_mem.mpr (List.mem_filter.mp hu).1) own
  refine ⟨fun a ha => ?_, ?_, ?_⟩
  · obtain ⟨hu, row⟩ := ended.values a ha
    exact ⟨List.contains_iff_mem.mp hu, row⟩
  · rw [rest]
    refine List.forall_mem_map.mpr fun r hr => ⟨isRow_putIn ended.values ?_, fun a ha => ?_⟩
    · rcases List.mem_append.mp hr with hr | hr
      · exact rows r (List.mem_filter.mp hr).1
      · exact ended.rows r hr
    · exact contains_putIn own (ended.ordered.imp fun h => h.2) (.inr ⟨a, ha, rfl⟩)
  · rw [List.pairwise_reverse]
    exact ended.ordered.imp fun h => ⟨h.1.symm, h.2⟩

end AnalogCircuit.Partition
