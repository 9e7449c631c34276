import AnalogCircuit.Proofs.Derivative
/-!
# Which symbols occur in what is built

Rebuilding, replacing and differentiating bring no symbols into an expression but those of its parts and of the
images. Rationality survives them as well.
-/

namespace AnalogCircuit.Expr

variable {α : Type}

/-! ## Properties of symbols and operators of time -/

/-- The property holds of an expression exactly when it holds of its parts, unless the expression is a symbol or an
operator of time. -/
structure Partwise [Scalar α] (H : Expr α → Prop) : Prop extends Hereditary False H where
  call (f : Builtin) (args : List (Expr α)) : H (call f args) ↔ ∀ a ∈ args, H a
  apply (f : String) (args : List (Expr α)) : H (apply f args) ↔ ∀ a ∈ args, H a
  compare (c : Comparison) (a b : Expr α) : H (compare c a b) ↔ H a ∧ H b
  select (c a b : Expr α) : H (select c a b) ↔ H c ∧ H a ∧ H b

theorem partwise_dependsOn [Scalar α] (p : Symbol → Bool) :
    Partwise fun e : Expr α => e.dependsOn p = false where
  toHereditary := hereditary_dependsOn p
  call _ _ := dependsOnList_eq_false_iff
  apply _ _ := dependsOnList_eq_false_iff
  compare _ _ _ := Bool.or_eq_false_iff
  select _ _ _ := by simp [dependsOn]

section

variable [Scalar α] [Std.LawfulEqCmp (Scalar.order (α := α))] {H H' : Expr α → Prop}

theorem Partwise.mkCall (h : Partwise H) {f : Builtin} {args : List (Expr α)} (ha : ∀ a ∈ args, H a) :
    H (mkCall f args) := by
  unfold Expr.mkCall
  split
  · obtain ⟨base, exponent⟩ := List.forall_mem_cons.mp ha
    exact h.mkPow base ⟨List.forall_mem_singleton.mp exponent, False.elim⟩
  split
  · exact h.mkNum _
  · exact (h.call _ _).mpr ha

/-! ## Replacing -/

/-- Rewriting leads from one property to another if it does so with symbols and operators of time. -/
theorem Partwise.rewrite (target : Partwise H) (source : Partwise H') {f : Expr α → Option (Expr α)}
    (leafwise : Leafwise f) (symbols : ∀ s, H' (sym s) → H ((f (sym s)).getD (sym s)))
    (derivatives : ∀ x t, H' (derivative x t) → (H' x → H (rewrite f x)) →
      H (rewrite f (derivative x t)))
    (integrals : ∀ x t, H' (integral x t) → (H' x → H (rewrite f x)) → H (rewrite f (integral x t)))
    {e : Expr α} (h : H' e) : H (rewrite f e) := by
  refine rewrite_hereditary target.toHereditary source.toHereditary id leafwise
    (fun e atom h ih => ?_) h
  cases e with
  | num _ | sum _ | product _ | power _ _ => exact atom.elim
  | sym s => rw [rewrite_eq]; exact symbols s h
  | call g args =>
    have args := (source.call g args).mp h
    rw [rewrite_eq, leafwise.call]
    exact target.mkCall (List.forall_mem_map.mpr fun a ha => ih a ha (args a ha))
  | apply g args =>
    have args := (source.apply g args).mp h
    rw [rewrite_eq, leafwise.apply]
    exact (target.apply g _).mpr (List.forall_mem_map.mpr fun a ha => ih a ha (args a ha))
  | compare c a b =>
    obtain ⟨ha, hb⟩ := (source.compare c a b).mp h
    have ha := ih a (by simp [children]) ha
    have hb := ih b (by simp [children]) hb
    rw [rewrite_eq, leafwise.compare]
    exact target.mkCompare ((target.compare c _ _).mpr ⟨ha, hb⟩)
  | select c a b =>
    obtain ⟨hc, ha, hb⟩ := (source.select c a b).mp h
    have hc := ih c (by simp [children]) hc
    have ha := ih a (by simp [children]) ha
    have hb := ih b (by simp [children]) hb
    rw [rewrite_eq, leafwise.select]
    exact Hereditary.mkSelect ((target.select _ _ _).mpr ⟨hc, ha, hb⟩) ha hb
  | derivative x t => exact derivatives x t h (ih x List.mem_cons_self)
  | integral x t => exact integrals x t h (ih x List.mem_cons_self)

variable {p : Symbol → Bool}

/-- What is rewritten is free of certain symbols if the images of its symbols and all answers to operators of time
are. -/
theorem dependsOn_rewrite {f : Expr α → Option (Expr α)} (leafwise : Leafwise f) {e : Expr α}
    (symbols : ∀ s, e.contains s = true → ((f (sym s)).getD (sym s)).dependsOn p = false)
    (operators : ∀ x t r, f (derivative x t) = some r ∨ f (integral x t) = some r →
      r.dependsOn p = false) :
    (rewrite f e).dependsOn p = false := by
  have image := partwise_dependsOn (α := α) fun s => ((f (sym s)).getD (sym s)).dependsOn p
  refine (partwise_dependsOn p).rewrite image leafwise (fun s free => free) (fun x t free ih => ?_)
    (fun x t free ih => ?_) (dependsOn_eq_false_iff.mpr symbols)
  · rw [rewrite_eq]
    cases answer : f (derivative x t) with
    | some r => exact operators x t r (.inl answer)
    | none =>
      show (mkDerivative _ t).dependsOn p = false
      unfold mkDerivative
      split
      · exact (hereditary_dependsOn p).num (0 : α)
      · exact ih free
  · rw [rewrite_eq]
    cases answer : f (integral x t) with
    | some r => exact operators x t r (.inr answer)
    | none => exact ih free

variable {e r : Expr α} {u : Symbol}

/-- A replaced symbol does not occur any more, unless it occurs in what it is replaced by. -/
theorem dependsOn_replace (he : e.dependsOn p = false)
    (hr : ∀ s, r.contains s = true → s ≠ u → p s = false) : (r.replace u e).dependsOn p = false := by
  rw [replace_eq]
  refine dependsOn_rewrite (leafwise_onSymbols _) (fun s hs => ?_) onSymbols_operators
  show (image (fun t => if t = u then some e else none) s).dependsOn p = false
  rw [image_replace]
  split
  · exact he
  · next other => exact hr s hs other

theorem contains_replace {s : Symbol} (he : e.contains s = false)
    (hr : r.contains s = false ∨ s = u) : (r.replace u e).contains s = false := by
  refine dependsOn_replace he fun t ht other => ?_
  rw [beq_eq_false_iff_ne]
  rintro rfl
  rcases hr with hr | rfl
  · rw [hr] at ht
    cases ht
  · exact other rfl

omit [Scalar α] [Std.LawfulEqCmp (Scalar.order (α := α))] in
/-- The parts of an expression mention nothing that the expression does not mention. -/
theorem dependsOn_of_mem_children {e x : Expr α} (h : e.dependsOn p = false) (hx : x ∈ e.children) :
    x.dependsOn p = false := by
  cases e with
  | num _ | sym _ => exact absurd hx List.not_mem_nil
  | sum _ | product _ | call _ _ | apply _ _ => exact dependsOnList_eq_false_iff.mp h x hx
  | power a b | compare _ a b =>
    obtain ⟨ha, hb⟩ := Bool.or_eq_false_iff.mp h
    rcases List.mem_cons.mp hx with rfl | hx
    · exact ha
    · rw [List.mem_singleton.mp hx]; exact hb
  | select c a b =>
    obtain ⟨hc, h⟩ := Bool.or_eq_false_iff.mp h
    obtain ⟨ha, hb⟩ := Bool.or_eq_false_iff.mp h
    simp only [children, List.mem_cons, List.not_mem_nil, or_false] at hx
    rcases hx with rfl | rfl | rfl
    · exact hc
    · exact ha
    · exact hb
  | derivative y _ | integral y _ => rw [List.mem_singleton.mp hx]; exact h

/-! ## Arithmetic in the unknowns -/

end

mutual

/-- Functions, comparisons and choices mention no unknown. -/
def isArithmetic (unknown : Symbol → Bool) : Expr α → Bool
  | num _ | sym _ => true
  | sum ts | product ts => isArithmeticList unknown ts
  | power a b => isArithmetic unknown a && isArithmetic unknown b
  | e => !e.dependsOn unknown

/-- Every expression of a list is arithmetic in the unknowns. -/
def isArithmeticList (unknown : Symbol → Bool) : List (Expr α) → Bool
  | [] => true
  | e :: es => isArithmetic unknown e && isArithmeticList unknown es

end

theorem isArithmeticList_iff {U : Symbol → Bool} {es : List (Expr α)} :
    isArithmeticList U es = true ↔ ∀ e ∈ es, isArithmetic U e = true := by
  induction es with
  | nil => simp [isArithmeticList]
  | cons e es ih => simp [isArithmeticList, ih]

theorem hereditary_isArithmetic [Scalar α] (U : Symbol → Bool) :
    Hereditary False fun e : Expr α => isArithmetic U e = true where
  num v := by simp only [isArithmetic]
  sum ts := by simp only [isArithmetic, isArithmeticList_iff]
  product fs := by simp only [isArithmetic, isArithmeticList_iff]
  power b e := by simp [isArithmetic]

theorem isArithmetic_of_dependsOn {U : Symbol → Bool} {e : Expr α} (h : e.dependsOn U = false) :
    isArithmetic U e = true := by
  induction e with
  | num _ | sym _ => simp only [isArithmetic]
  | sum ts ih | product ts ih =>
    have h := dependsOnList_eq_false_iff.mp h
    rw [isArithmetic]
    exact isArithmeticList_iff.mpr fun t ht => ih t ht (h t ht)
  | power a b ha hb =>
    obtain ⟨h₁, h₂⟩ := Bool.or_eq_false_iff.mp h
    rw [isArithmetic, ha h₁, hb h₂]
    rfl
  | _ => simp [isArithmetic, h]

variable [ExactScalar α]

/-- Regular arithmetic is rational. -/
theorem isRational_of_regular {U : Symbol → Bool} {ℓ : Symbol → Option α} {e : Expr α}
    (h : isArithmetic U e = true) (regular : Regular ℓ e) : isRational U e = true := by
  induction e with
  | num _ | sym _ => simp only [isRational]
  | sum ts ih =>
    rw [isRational]
    exact isRationalList_iff.mpr fun t ht =>
      ih t ht (isArithmeticList_iff.mp h t ht) (regular_sum.mp regular t ht)
  | product fs ih =>
    rw [isRational]
    exact isRationalList_iff.mpr fun f hf =>
      ih f hf (isArithmeticList_iff.mp h f hf) (regular_product.mp regular f hf)
  | power b e hb _ =>
    obtain ⟨n, rfl, regular, hn, -⟩ := regular_power.mp regular
    obtain ⟨h, -⟩ := Bool.and_eq_true_iff.mp h
    rw [isRational, hb h regular, hn]
    rfl
  | _ => simpa [isRational, isArithmetic] using h

/-- Rewriting keeps arithmetic if the images are arithmetic and those of known symbols free of unknowns. -/
theorem isArithmetic_rewrite {U : Symbol → Bool} {g : Symbol → Option (Expr α)}
    (images : ∀ s, isArithmetic U (image g s) = true)
    (known : ∀ s, U s = false → (image g s).dependsOn U = false) {e : Expr α}
    (h : isArithmetic U e = true) : isArithmetic U (rewrite (onSymbols g) e) = true := by
  have arithmetic := hereditary_isArithmetic (α := α) U
  refine rewrite_hereditary arithmetic arithmetic id (leafwise_onSymbols g) (fun e atom h _ => ?_) h
  -- what is no symbol mentions no unknown, and so does its image
  have free (h : (!e.dependsOn U) = true) : isArithmetic U (rewrite (onSymbols g) e) = true :=
    isArithmetic_of_dependsOn <| dependsOn_rewrite (leafwise_onSymbols g)
      (fun s hs => known s (dependsOn_eq_false_iff.mp (by simpa using h) s hs)) onSymbols_operators
  cases e with
  | num _ | sum _ | product _ | power _ _ => exact atom.elim
  | sym s => rw [rewrite_sym]; exact images s
  | _ => exact free h

/-! ## Differentiating -/

/-- A rational expression is differentiated within every class that its parts determine. -/
theorem Hereditary.diff {strict : Prop} {H : Expr α → Prop} (h : Hereditary strict H)
    {U : Symbol → Bool} {u : Symbol} (hu : U u = true) {e : Expr α} (rational : isRational U e = true)
    (he : H e) : H (e.diff u) := by
  suffices step : ∀ again? : Option (Expr α → Expr α), H (diffStep u again? e) by
    unfold Expr.diff
    cases e.rewritableCalls <;> exact step _
  intro again?
  have zero : H zero := h.num 0
  have absent {e : Expr α} (ha : (!e.dependsOn U) = true) : H (diffStep u again? e) := by
    rw [diffStep.eq_def, contains_eq_false hu (by simpa using ha)]
    exact zero
  have list {es : List (Expr α)} (ih : ∀ e ∈ es, H (diffStep u again? e)) :
      ∀ d ∈ diffSteps u again? es, H d := by
    rw [diffSteps_eq_map]
    intro d hd
    obtain ⟨e, he, rfl⟩ := List.mem_map.mp hd
    exact ih e he
  induction e with
  | num _ => exact zero
  | sym s =>
    rw [diffStep]
    split
    · exact zero
    · exact h.num 1
  | sum ts ih =>
    rw [diffStep]
    split
    · exact zero
    · exact h.mkSum (list fun t ht =>
        ih t ht (isRationalList_iff.mp rational t ht) ((h.sum ts).mp he t ht))
  | product fs ih =>
    rw [diffStep]
    split
    · exact zero
    have parts := (h.product fs).mp he
    have slopes := list fun f hf => ih f hf (isRationalList_iff.mp rational f hf) (parts f hf)
    have firsts : (fs.zip (diffSteps u again? fs)).map (·.1) = fs := by
      refine List.map_fst_zip ?_
      rw [diffSteps_eq_map, List.length_map]
    unfold productRule
    refine h.mkSum fun x hx => ?_
    rw [List.mapIdx_eq_zipIdx_map] at hx
    obtain ⟨⟨⟨f, d⟩, i⟩, hm, rfl⟩ := List.mem_map.mp hx
    have hd : H d := by
      have hm := List.mem_of_getElem? (List.mk_mem_zipIdx_iff_getElem?.mp hm)
      exact slopes d (List.of_mem_zip hm).2
    dsimp only
    split
    · exact zero
    · refine h.mkProduct fun y hy => ?_
      rw [firsts] at hy
      rcases List.mem_or_eq_of_mem_set hy with hy | rfl
      · exact parts y hy
      · exact hd
  | power b e hb _ =>
    obtain ⟨rational_base, -, integral⟩ := (hereditary_isRational U).power b e |>.mp rational
    obtain ⟨n, rfl, hn⟩ := integral trivial
    obtain ⟨base, -, -⟩ := (h.power b (.num n)).mp he
    rw [diffStep]
    split
    · exact zero
    rw [show (Expr.num n).contains u = false from rfl, if_neg Bool.false_ne_true]
    unfold constantPowerRule
    rw [num_sub_one]
    have below : H (.mkPow b (.num (n - 1))) := by
      refine h.mkPow base ⟨h.num _, fun _ => ⟨n - 1, rfl, ?_⟩⟩
      rw [sub_eq_add_neg]
      exact Scalar.isIntegral_add hn (Scalar.isIntegral_neg Scalar.isIntegral_one)
    exact h.mkProduct (by simp [h.num, below, hb rational_base base])
  | _ => exact absent rational

end AnalogCircuit.Expr
