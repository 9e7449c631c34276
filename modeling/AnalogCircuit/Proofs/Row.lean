import AnalogCircuit.Proofs.Elimination
import AnalogCircuit.Proofs.Emittable
/-!
# Rows of an elimination

A row is an expression that is rational in the unknowns and for which code can be emitted. Replacing unknowns by
rows, solving for an unknown and differentiating lead from rows to rows, and mention nothing that the rows do not
mention.
-/

namespace AnalogCircuit

variable {α : Type}

namespace Expr

/-! ## Computable expressions -/

mutual

/-- Exponents are integral constants, powers are not written as calls, and there are no unknown functions; derivatives
and integrals over the time occur only if they are allowed. -/
def isComputable [Scalar α] (inTime : Bool) : Expr α → Bool
  | num _ | sym _ => true
  | sum ts | product ts => isComputableList inTime ts
  | power b (num n) => isComputable inTime b && Scalar.isIntegral n
  | power _ _ => false
  | call f args => f != .pow && isComputableList inTime args
  | compare _ a b => isComputable inTime a && isComputable inTime b
  | select c a b => isComputable inTime c && (isComputable inTime a && isComputable inTime b)
  | apply _ _ => false
  | derivative x t | integral x t => inTime && (t == .time && isComputable inTime x)

/-- Every expression of a list is computable. -/
def isComputableList [Scalar α] (inTime : Bool) : List (Expr α) → Bool
  | [] => true
  | e :: es => isComputable inTime e && isComputableList inTime es

end

section

variable [Scalar α] {inTime : Bool}

theorem isComputableList_iff {es : List (Expr α)} :
    isComputableList inTime es = true ↔ ∀ e ∈ es, isComputable inTime e = true := by
  induction es with
  | nil => exact iff_of_true rfl (List.forall_mem_nil _)
  | cons e es ih =>
    rw [List.forall_mem_cons, ← ih]
    exact Bool.and_eq_true_iff

theorem hereditary_isComputable (inTime : Bool) :
    Hereditary True fun e : Expr α => isComputable inTime e = true where
  num _ := rfl
  sum _ := isComputableList_iff
  product _ := isComputableList_iff
  power b e := by
    constructor
    · intro h
      cases e with
      | num n =>
        obtain ⟨hb, hn⟩ := Bool.and_eq_true_iff.mp h
        exact ⟨hb, rfl, fun _ => ⟨n, rfl, hn⟩⟩
      | _ => exact nomatch h
    · rintro ⟨hb, -, integral⟩
      obtain ⟨n, rfl, hn⟩ := integral trivial
      exact Bool.and_eq_true_iff.mpr ⟨hb, hn⟩

theorem isComputable_call {f : Builtin} {args : List (Expr α)} :
    isComputable inTime (call f args) = true ↔
      f ≠ .pow ∧ ∀ a ∈ args, isComputable inTime a = true :=
  Bool.and_eq_true_iff.trans (and_congr bne_iff_ne isComputableList_iff)

theorem isComputable_compare {c : Comparison} {a b : Expr α} :
    isComputable inTime (compare c a b) = true ↔
      isComputable inTime a = true ∧ isComputable inTime b = true :=
  Bool.and_eq_true_iff

theorem isComputable_select {c a b : Expr α} :
    isComputable inTime (select c a b) = true ↔ isComputable inTime c = true ∧
      isComputable inTime a = true ∧ isComputable inTime b = true :=
  Bool.and_eq_true_iff.trans (and_congr_right' Bool.and_eq_true_iff)

theorem isComputable_derivative {x : Expr α} {t : Symbol} :
    isComputable inTime (derivative x t) = true ↔
      inTime = true ∧ t = .time ∧ isComputable inTime x = true :=
  Bool.and_eq_true_iff.trans (and_congr_right' (Bool.and_eq_true_iff.trans (and_congr_left' beq_iff_eq)))

theorem isComputable_integral {x : Expr α} {t : Symbol} :
    isComputable inTime (integral x t) = true ↔
      inTime = true ∧ t = .time ∧ isComputable inTime x = true :=
  isComputable_derivative

theorem hasIntegralPowers_of_isComputable {e : Expr α} (h : isComputable inTime e = true) :
    hasIntegralPowers e = true := by
  induction e with
  | num _ | sym _ => simp only [hasIntegralPowers]
  | sum ts ih | product ts ih =>
    exact hasIntegralPowersList_iff.mpr fun t ht => ih t ht (isComputableList_iff.mp h t ht)
  | power b e hb _ =>
    obtain ⟨base, -, n, rfl, hn⟩ := (hereditary_isComputable inTime).power b e |>.mp h |>.imp_right
      (·.imp_right (· trivial))
    rw [hasIntegralPowers, hb base, hn]
    rfl
  | call f args ih =>
    exact hasIntegralPowersList_iff.mpr fun a ha => ih a ha ((isComputable_call.mp h).2 a ha)
  | apply f args _ => cases h
  | compare c a b ha hb =>
    obtain ⟨h₁, h₂⟩ := isComputable_compare.mp h
    rw [hasIntegralPowers, ha h₁, hb h₂]
    rfl
  | select c a b hc ha hb =>
    obtain ⟨h₁, h₂, h₃⟩ := isComputable_select.mp h
    rw [hasIntegralPowers, hc h₁, ha h₂, hb h₃]
    rfl
  | derivative x t ih | integral x t ih =>
    exact ih (isComputable_derivative.mp h).2.2

end

section

variable [ExactScalar α] {U : Symbol → Bool}

/-! ## Rewriting -/

/-- Rewriting leads to computable expressions if the images of symbols and the answers to operators of time are
computable, and all operators are answered. -/
theorem isComputable_rewrite {inTime : Bool} {f : Expr α → Option (Expr α)} (leafwise : Leafwise f)
    (symbols : ∀ s, isComputable false ((f (sym s)).getD (sym s)) = true)
    (operators : inTime = true → ∀ x, (∃ r, f (derivative x .time) = some r ∧
      isComputable false r = true) ∧ ∃ r, f (integral x .time) = some r ∧ isComputable false r = true)
    {e : Expr α} (h : isComputable inTime e = true) : isComputable false (rewrite f e) = true := by
  have closed := hereditary_isComputable (α := α) false
  refine rewrite_hereditary closed (hereditary_isComputable inTime) id leafwise
    (fun e atom h ih => ?_) h
  cases e with
  | num _ | sum _ | product _ | power _ _ => exact atom.elim
  | sym s => rw [rewrite_eq]; exact symbols s
  | call g args =>
    obtain ⟨hg, hargs⟩ := isComputable_call.mp h
    rw [rewrite_eq, leafwise.call]
    exact closed.mkCall hg (isComputable_call.mpr
      ⟨hg, List.forall_mem_map.mpr fun a ha => ih a ha (hargs a ha)⟩)
  | apply g args => cases h
  | compare c a b =>
    obtain ⟨ha, hb⟩ := isComputable_compare.mp h
    have ha := ih a (by simp [children]) ha
    have hb := ih b (by simp [children]) hb
    rw [rewrite_eq, leafwise.compare]
    exact closed.mkCompare (isComputable_compare.mpr ⟨ha, hb⟩)
  | select c a b =>
    obtain ⟨hc, ha, hb⟩ := isComputable_select.mp h
    have hc := ih c (by simp [children]) hc
    have ha := ih a (by simp [children]) ha
    have hb := ih b (by simp [children]) hb
    rw [rewrite_eq, leafwise.select]
    exact Hereditary.mkSelect (H := fun e => isComputable false e = true)
      (isComputable_select.mpr ⟨hc, ha, hb⟩) ha hb
  | derivative x t =>
    obtain ⟨timed, rfl, -⟩ := isComputable_derivative.mp h
    obtain ⟨⟨r, answer, hr⟩, -⟩ := operators timed x
    rw [rewrite_eq, answer]
    exact hr
  | integral x t =>
    obtain ⟨timed, rfl, -⟩ := isComputable_integral.mp h
    obtain ⟨-, r, answer, hr⟩ := operators timed x
    rw [rewrite_eq, answer]
    exact hr

/-- A computable expression without unknowns is rational in them. -/
theorem isRational_of_dependsOn {inTime : Bool} {e : Expr α} (free : e.dependsOn U = false)
    (h : isComputable inTime e = true) : isRational U e = true := by
  induction e with
  | num _ | sym _ => simp only [isRational]
  | sum ts ih | product ts ih =>
    have free := dependsOnList_eq_false_iff.mp free
    exact isRationalList_iff.mpr fun t ht => ih t ht (free t ht) (isComputableList_iff.mp h t ht)
  | power b e hb _ =>
    obtain ⟨base, -, integral⟩ := (hereditary_isComputable inTime).power b e |>.mp h
    obtain ⟨n, rfl, hn⟩ := integral trivial
    rw [isRational, hb (Bool.or_eq_false_iff.mp free).1 base, hn]
    rfl
  | _ => simp [isRational, free]

/-! ## Rows -/

/-- The expression is rational in the unknowns, and computable. -/
structure IsRow (unknown : Symbol → Bool) (e : Expr α) : Prop where
  rational : isRational unknown e = true
  computable : isComputable false e = true

theorem hereditary_isRow (U : Symbol → Bool) : Hereditary True fun e : Expr α => IsRow U e := by
  have rational := hereditary_isRational (α := α) U
  have computable := hereditary_isComputable (α := α) false
  refine ⟨fun v => ⟨rational.num v, computable.num v⟩, fun ts => ?_, fun fs => ?_, fun b e => ?_⟩
  · constructor
    · intro h t ht
      exact ⟨(rational.sum ts).mp h.rational t ht, (computable.sum ts).mp h.computable t ht⟩
    · intro h
      exact ⟨(rational.sum ts).mpr fun t ht => (h t ht).rational,
        (computable.sum ts).mpr fun t ht => (h t ht).computable⟩
  · constructor
    · intro h f hf
      exact ⟨(rational.product fs).mp h.rational f hf, (computable.product fs).mp h.computable f hf⟩
    · intro h
      exact ⟨(rational.product fs).mpr fun f hf => (h f hf).rational,
        (computable.product fs).mpr fun f hf => (h f hf).computable⟩
  · constructor
    · intro h
      obtain ⟨rb, re, integral⟩ := (rational.power b e).mp h.rational
      obtain ⟨cb, ce, -⟩ := (computable.power b e).mp h.computable
      exact ⟨⟨rb, cb⟩, ⟨re, ce⟩, integral⟩
    · rintro ⟨hb, he, integral⟩
      exact ⟨(rational.power b e).mpr ⟨hb.rational, he.rational, integral⟩,
        (computable.power b e).mpr ⟨hb.computable, he.computable, integral⟩⟩

theorem isRow_sym (s : Symbol) : IsRow U (sym s : Expr α) := ⟨rfl, rfl⟩

theorem IsRow.hasIntegralPowers {e : Expr α} (h : IsRow U e) : e.hasIntegralPowers = true :=
  hasIntegralPowers_of_isComputable h.computable

variable {u : Symbol} {e r : Expr α}

/-- Rewriting leads from rows to rows if the images of unknowns are rows and those of known symbols mention no
unknown. -/
theorem IsRow.rewrite {g : Symbol → Option (Expr α)} (images : ∀ s, IsRow U (image g s))
    (known : ∀ s, U s = false → (image g s).dependsOn U = false) (h : IsRow U e) :
    IsRow U (e.rewrite (onSymbols g)) := by
  have rows := hereditary_isRow (α := α) U
  refine rewrite_hereditary rows rows id (leafwise_onSymbols g) (fun e atom h _ => ?_) h
  -- what is no symbol mentions no unknown, and so does its image
  have free (absent : (!e.dependsOn U) = true) : IsRow U (e.rewrite (onSymbols g)) := by
    have computable := isComputable_rewrite (leafwise_onSymbols g)
      (fun s => (images s).computable) (fun h : false = true => nomatch h) h.computable
    refine ⟨isRational_of_dependsOn ?_ computable, computable⟩
    exact dependsOn_rewrite (leafwise_onSymbols g)
      (fun s hs => known s (dependsOn_eq_false_iff.mp (by simpa using absent) s hs))
      onSymbols_operators
  cases e with
  | num _ | sum _ | product _ | power _ _ => exact atom.elim
  | sym s => rw [rewrite_sym]; exact images s
  | _ => exact free h.rational

/-- Replacing an unknown by a row in a row leads to a row. -/
theorem IsRow.replace (h : IsRow U r) (hu : U u = true) (he : IsRow U e) :
    IsRow U (r.replace u e) := by
  rw [replace_eq]
  refine h.rewrite (fun s => ?_) (fun s hs => ?_)
  · rw [image_replace]
    split
    · exact he
    · exact isRow_sym s
  · rw [image_replace, if_neg]
    · exact hs
    · rintro rfl
      rw [hu] at hs
      cases hs

theorem IsRow.diff (h : IsRow U e) (hu : U u = true) : IsRow U (e.diff u) :=
  (hereditary_isRow U).diff hu h.rational h

end

end Expr

namespace Partition

open Expr

variable [ExactScalar α] {U : Symbol → Bool} {u s : Symbol} {e r : Expr α}

theorem isRow_solveFor (hu : U u = true) (h : IsRow U r) : IsRow U (solveFor u r) := by
  have closed := hereditary_isRow (α := α) U
  exact closed.div (closed.neg (h.replace hu (closed.num 0))) (h.diff hu)

theorem contains_solveFor (hu : U u = true) (h : IsRow U r) (free : r.contains s = false) :
    (solveFor u r).contains s = false := by
  have closed := hereditary_dependsOn (α := α) (· == s)
  exact closed.div (closed.neg (contains_replace rfl (.inl free))) (closed.diff hu h.rational free)

theorem isRow_replaceIn (hu : U u = true) (he : IsRow U e) (h : IsRow U r) :
    IsRow U (replaceIn u e r) := by
  unfold replaceIn
  split
  · exact h.replace hu he
  · exact h

theorem contains_replaceIn (he : e.contains s = false) (hr : r.contains s = false ∨ s = u) :
    (replaceIn u e r).contains s = false := by
  unfold replaceIn
  split
  · exact contains_replace he hr
  · next absent =>
    rcases hr with hr | rfl
    · exact hr
    · simpa using absent

end Partition

end AnalogCircuit
