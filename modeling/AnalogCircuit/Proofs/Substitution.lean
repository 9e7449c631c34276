import AnalogCircuit.Proofs.Closure
import AnalogCircuit.Expr.Traverse
/-!
# The value of what is rebuilt

The remaining constructors keep values as the canonical sum and product do, and so does replacing symbols:
the value of the result is that of the expression under the valuation that gives each symbol the value of
its image.
-/

namespace AnalogCircuit.Expr

variable {α : Type}

section

variable [ExactScalar α]

/-! ## Operators -/

namespace Interpretation

variable {M : Interpretation α} {a b : Expr α}

theorem regular_inverse (ha : M.Regular a) (h : M.value a ≠ 0) : M.Regular (power a (num (-1))) :=
  M.regular_power.mpr ⟨-1, rfl, ha, Scalar.isIntegral_neg Scalar.isIntegral_one,
    fun _ => Scalar.isZero_eq_false_iff.mpr h⟩

theorem neg_denotes (ha : M.Regular a) : M.Denotes (-a) (-M.value a) := by
  have all : ∀ e ∈ [num (-1), a], M.Regular e := by simp [ha]
  obtain ⟨hr, hv⟩ := M.mkProduct_denotes all
  show M.Denotes (mkProduct [mkNum (-1), a]) _
  rw [mkNum_eq]
  exact ⟨hr, by rw [hv]; simp⟩

theorem add_denotes (ha : M.Regular a) (hb : M.Regular b) : M.Denotes (a + b) (M.value a + M.value b) := by
  have all : ∀ e ∈ [a, b], M.Regular e := by simp [ha, hb]
  obtain ⟨hr, hv⟩ := M.mkSum_denotes all
  exact ⟨hr, hv.trans (by simp)⟩

theorem sub_denotes (ha : M.Regular a) (hb : M.Regular b) : M.Denotes (a - b) (M.value a - M.value b) := by
  obtain ⟨hn, hv⟩ := M.neg_denotes hb
  have all : ∀ e ∈ [a, -b], M.Regular e := by simp [ha, hn]
  obtain ⟨hr, hs⟩ := M.mkSum_denotes all
  exact ⟨hr, hs.trans (by simp [hv, sub_eq_add_neg])⟩

theorem mul_denotes (ha : M.Regular a) (hb : M.Regular b) : M.Denotes (a * b) (M.value a * M.value b) := by
  have all : ∀ e ∈ [a, b], M.Regular e := by simp [ha, hb]
  obtain ⟨hr, hv⟩ := M.mkProduct_denotes all
  exact ⟨hr, hv.trans (by simp)⟩

theorem div_denotes (ha : M.Regular a) (hb : M.Regular b) (h : M.value b ≠ 0) :
    M.Denotes (a / b) (M.value a / M.value b) := by
  have hi := M.regular_inverse hb h
  obtain ⟨hp, hv⟩ := M.mkPow_denotes hi
  have all : ∀ e ∈ [a, mkPow b (num (-1))], M.Regular e := by simp [ha, hp]
  obtain ⟨hr, hd⟩ := M.mkProduct_denotes all
  show M.Denotes (mkProduct [a, mkPow b (mkNum (-1))]) _
  rw [mkNum_eq]
  have minus : Scalar.toInt (-1 : α) = -1 := by
    rw [← Int.cast_one, ← Int.cast_neg, Scalar.toInt_intCast]
  refine ⟨hr, hd.trans ?_⟩
  rw [List.map_cons, List.map_singleton, List.prod_cons, List.prod_singleton, hv,
    M.value_power hb (Scalar.isIntegral_neg Scalar.isIntegral_one), minus, zpow_neg_one,
    div_eq_mul_inv]

end Interpretation

variable {ℓ : Symbol → Option α}

theorem neg_denotes {a : Expr α} (ha : Regular ℓ a) : Denotes ℓ (-a) (-value ℓ a) := (evaluation ℓ).neg_denotes ha

theorem add_denotes {a b : Expr α} (ha : Regular ℓ a) (hb : Regular ℓ b) :
    Denotes ℓ (a + b) (value ℓ a + value ℓ b) := (evaluation ℓ).add_denotes ha hb

theorem sub_denotes {a b : Expr α} (ha : Regular ℓ a) (hb : Regular ℓ b) :
    Denotes ℓ (a - b) (value ℓ a - value ℓ b) := (evaluation ℓ).sub_denotes ha hb

theorem mul_denotes {a b : Expr α} (ha : Regular ℓ a) (hb : Regular ℓ b) :
    Denotes ℓ (a * b) (value ℓ a * value ℓ b) := (evaluation ℓ).mul_denotes ha hb

theorem div_denotes {a b : Expr α} (ha : Regular ℓ a) (hb : Regular ℓ b) (h : value ℓ b ≠ 0) :
    Denotes ℓ (a / b) (value ℓ a / value ℓ b) := (evaluation ℓ).div_denotes ha hb h

/-! ## Functions and conditions -/

omit [ExactScalar α] in
theorem mapM_constant? {args : List (Expr α)} {vs : List α} (h : args.mapM constant? = some vs) :
    args = vs.map num := by
  induction args generalizing vs with
  | nil =>
    obtain rfl : vs = [] := by simpa using h.symm
    rfl
  | cons a args ih =>
    rw [List.mapM_cons] at h
    obtain ⟨v, hv, h⟩ := Option.bind_eq_some_iff.mp h
    obtain ⟨ws, hws, h⟩ := Option.bind_eq_some_iff.mp h
    cases h
    rw [constant?_eq_some_iff.mp hv, ih hws, List.map_cons]

theorem mkCall_denotes {f : Builtin} {args : List (Expr α)} (h : Regular ℓ (call f args)) :
    Denotes ℓ (mkCall f args) (value ℓ (call f args)) := by
  obtain ⟨hf, -, ha⟩ := regular_call.mp h
  unfold mkCall
  split
  · exact absurd rfl hf
  split
  · next v hv =>
    obtain ⟨vs, hvs, hv⟩ := Option.bind_eq_some_iff.mp hv
    have values : args.map (value ℓ) = vs := by
      rw [mapM_constant? hvs, List.map_map]
      exact List.map_id vs
    rw [mkNum_eq, value_call ha, values, hv]
    exact denotes_num v
  · exact h.denotes

theorem regular_compare {c : Comparison} {a b : Expr α} :
    Regular ℓ (compare c a b) ↔ Regular ℓ a ∧ Regular ℓ b := by rw [Regular]

theorem mkCompare_denotes {c : Comparison} {a b : Expr α} (h : Regular ℓ (compare c a b)) :
    Denotes ℓ (mkCompare c a b) (value ℓ (compare c a b)) := by
  unfold mkCompare
  split
  · rw [mkNum_eq, value_compare (regular_num _) (regular_num _)]
    exact denotes_num _
  · exact h.denotes

theorem regular_select {c a b : Expr α} :
    Regular ℓ (select c a b) ↔
      Regular ℓ c ∧ if Scalar.isZero (value ℓ c) then Regular ℓ b else Regular ℓ a := by rw [Regular]

theorem mkSelect_denotes {c a b : Expr α} (h : Regular ℓ (select c a b)) :
    Denotes ℓ (mkSelect c a b) (value ℓ (select c a b)) := by
  obtain ⟨hc, hb⟩ := regular_select.mp h
  rw [value_select hc]
  unfold mkSelect
  split
  · next v =>
    rw [value_num] at *
    split
    · next hz => rw [if_pos hz] at *; exact hb.denotes
    · next hz => rw [if_neg hz] at *; exact hb.denotes
  · split
    · next same =>
      obtain rfl := eq_of_beq same
      have ha : Regular ℓ a := by simpa using hb
      simpa using ha.denotes
    · rw [← value_select hc]
      exact h.denotes

end

/-! ## Replacing symbols -/

/-- Answers on symbols only. -/
def onSymbols (g : Symbol → Option (Expr α)) : Expr α → Option (Expr α)
  | sym s => g s
  | _ => none

/-- What stands in the place of a symbol after replacing. -/
def image (g : Symbol → Option (Expr α)) (s : Symbol) : Expr α := (g s).getD (sym s)

theorem mapSymbols_eq [Scalar α] (f : Symbol → Expr α) (e : Expr α) :
    e.mapSymbols f = e.rewrite (onSymbols fun s => some (f s)) := by
  rfl

theorem replace_eq [Scalar α] (e : Expr α) (s : Symbol) (r : Expr α) :
    e.replace s r = e.rewrite (onSymbols fun t => if t = s then some r else none) := by
  unfold replace substitute
  rw [if_neg (by simp)]
  congr
  funext e
  cases e with
  | sym t =>
    show List.lookup t [(s, r)] = if t = s then some r else none
    rw [List.lookup_cons]
    by_cases h : t = s
    · rw [if_pos h, h, beq_self_eq_true]
    · rw [if_neg h, beq_eq_false_iff_ne.mpr h]
      rfl
  | _ => rfl

/-- Answers are given on symbols and operators of time only, so that everything else is rebuilt. -/
structure Leafwise (f : Expr α → Option (Expr α)) : Prop where
  num (v : α) : f (num v) = none
  sum (ts : List (Expr α)) : f (sum ts) = none
  product (fs : List (Expr α)) : f (product fs) = none
  power (b e : Expr α) : f (power b e) = none
  call (g : Builtin) (args : List (Expr α)) : f (call g args) = none
  apply (g : String) (args : List (Expr α)) : f (apply g args) = none
  compare (c : Comparison) (a b : Expr α) : f (compare c a b) = none
  select (c a b : Expr α) : f (select c a b) = none

theorem leafwise_onSymbols (g : Symbol → Option (Expr α)) : Leafwise (onSymbols g) :=
  ⟨fun _ => rfl, fun _ => rfl, fun _ => rfl, fun _ _ => rfl, fun _ _ => rfl, fun _ _ => rfl,
    fun _ _ _ => rfl, fun _ _ _ => rfl⟩

/-- Nothing is answered on operators of time. -/
theorem onSymbols_operators {g : Symbol → Option (Expr α)} {P : Expr α → Prop} (x : Expr α)
    (t : Symbol) (r : Expr α)
    (h : onSymbols g (derivative x t) = some r ∨ onSymbols g (integral x t) = some r) : P r := by
  rcases h with h | h <;> cases h

theorem image_replace (u : Symbol) (e : Expr α) (s : Symbol) :
    image (fun t => if t = u then some e else none) s = if s = u then e else sym s := by
  show (if s = u then some e else none).getD (sym s) = _
  split <;> rfl

@[simp] theorem rewrite_num [Scalar α] (g : Symbol → Option (Expr α)) (v : α) :
    rewrite (onSymbols g) (num v) = num v := by
  rw [rewrite_eq]; rfl

@[simp] theorem rewrite_sym [Scalar α] (g : Symbol → Option (Expr α)) (s : Symbol) :
    rewrite (onSymbols g) (sym s) = image g s := by
  rw [rewrite_eq]; rfl

/-- The expression is no constant, sum, product or power. -/
def IsAtom : Expr α → Prop
  | num _ | sum _ | product _ | power _ _ => False
  | _ => True

/-- Rewriting leads from one class into another if it does so with whatever is no constant, sum, product or
power. -/
theorem rewrite_hereditary [Scalar α] [Std.LawfulEqCmp (Scalar.order (α := α))]
    {strict strict' : Prop} [IntegralExponents α strict] {H H' : Expr α → Prop} (target : Hereditary strict H)
    (source : Hereditary strict' H') (integral : strict → strict') {f : Expr α → Option (Expr α)} (leafwise : Leafwise f)
    (atoms : ∀ e, IsAtom e → H' e → (∀ x ∈ e.children, H' x → H (rewrite f x)) → H (rewrite f e))
    {e : Expr α} (h : H' e) : H (rewrite f e) := by
  have list {es : List (Expr α)} (ih : ∀ e ∈ es, H' e → H (rewrite f e)) (hes : ∀ e ∈ es, H' e) :
      ∀ x ∈ es.map (rewrite f), H x := by
    intro x hx
    obtain ⟨e, he, rfl⟩ := List.mem_map.mp hx
    exact ih e he (hes e he)
  have number (n : α) : rewrite f (num n) = num n := by
    rw [rewrite_eq, leafwise.num]
    rfl
  induction e with
  | num v => rw [number]; exact target.num v
  | sum ts ih =>
    rw [rewrite_eq, leafwise.sum]
    exact target.mkSum (list ih ((source.sum ts).mp h))
  | product fs ih =>
    rw [rewrite_eq, leafwise.product]
    exact target.mkProduct (list ih ((source.product fs).mp h))
  | power b e hb he =>
    obtain ⟨base, exponent, constant⟩ := (source.power b e).mp h
    rw [rewrite_eq, leafwise.power]
    refine target.mkPow (hb base) ⟨he exponent, fun strict => ?_⟩
    obtain ⟨n, rfl, hn⟩ := constant (integral strict)
    exact ⟨n, number n, hn⟩
  | sym s => exact atoms (sym s) trivial h fun x hx => absurd hx List.not_mem_nil
  | call g args ih => exact atoms (call g args) trivial h ih
  | apply g args ih => exact atoms (apply g args) trivial h ih
  | compare c a b ha hb =>
    refine atoms (compare c a b) trivial h (List.forall_mem_cons.mpr ⟨ha, ?_⟩)
    exact List.forall_mem_singleton.mpr hb
  | select c a b hc ha hb =>
    refine atoms (select c a b) trivial h (List.forall_mem_cons.mpr ⟨hc, ?_⟩)
    exact List.forall_mem_cons.mpr ⟨ha, List.forall_mem_singleton.mpr hb⟩
  | derivative x t ih =>
    exact atoms (derivative x t) trivial h (List.forall_mem_singleton.mpr ih)
  | integral x t ih =>
    exact atoms (Expr.integral x t) trivial h (List.forall_mem_singleton.mpr ih)

/-- Replacing symbols by expressions that have their values does not change the value. -/
theorem rewrite_denotes [ExactScalar α] {ℓ ℓ' : Symbol → Option α} {g : Symbol → Option (Expr α)}
    (images : ∀ s x, ℓ' s = some x → Denotes ℓ (image g s) x) {e : Expr α} (h : Regular ℓ' e) :
    Denotes ℓ (rewrite (onSymbols g) e) (value ℓ' e) := by
  have list {es : List (Expr α)} (h : ∀ e ∈ es, Denotes ℓ (rewrite (onSymbols g) e) (value ℓ' e)) :
      (∀ e ∈ es.map (rewrite (onSymbols g)), Regular ℓ e) ∧
        (es.map (rewrite (onSymbols g))).map (value ℓ) = es.map (value ℓ') := by
    constructor
    · intro x hx
      obtain ⟨e, he, rfl⟩ := List.mem_map.mp hx
      exact (h e he).1
    · rw [List.map_map]
      exact List.map_congr_left fun e he => (h e he).2
  induction e with
  | num v => rw [rewrite_num]; exact denotes_num v
  | sym s =>
    rw [rewrite_sym]
    rw [Regular] at h
    obtain ⟨x, hx⟩ := Option.isSome_iff_exists.mp h
    rw [value_of_evaluate (show evaluate ℓ' (sym s) = some x from hx)]
    exact images s x hx
  | sum ts ih =>
    have h := regular_sum.mp h
    obtain ⟨hr, hv⟩ := list fun t ht => ih t ht (h t ht)
    rw [rewrite_eq, value_sum h, ← hv]
    exact mkSum_denotes hr
  | product fs ih =>
    have h := regular_product.mp h
    obtain ⟨hr, hv⟩ := list fun f hf => ih f hf (h f hf)
    rw [rewrite_eq, value_product h, ← hv]
    exact mkProduct_denotes hr
  | power b e hb _ =>
    obtain ⟨n, rfl, h, hn, nonzero⟩ := regular_power.mp h
    obtain ⟨hr, hv⟩ := hb h
    rw [← hv] at nonzero
    rw [rewrite_eq, value_power h hn, ← hv, ← value_power hr hn]
    show Denotes ℓ (mkPow _ (rewrite _ (num n))) _
    rw [rewrite_num]
    exact mkPow_denotes (regular_power.mpr ⟨n, rfl, hr, hn, nonzero⟩)
  | call f args ih =>
    obtain ⟨hf, arity, h⟩ := regular_call.mp h
    obtain ⟨hr, hv⟩ := list fun a ha => ih a ha (h a ha)
    rw [rewrite_eq, value_call h, ← hv, ← value_call hr]
    exact mkCall_denotes (regular_call.mpr ⟨hf, by rwa [List.length_map], hr⟩)
  | compare c a b ha hb =>
    obtain ⟨h₁, h₂⟩ := regular_compare.mp h
    obtain ⟨ra, va⟩ := ha h₁
    obtain ⟨rb, vb⟩ := hb h₂
    rw [rewrite_eq, value_compare h₁ h₂, ← va, ← vb, ← value_compare ra rb]
    exact mkCompare_denotes (regular_compare.mpr ⟨ra, rb⟩)
  | select c a b hc ha hb =>
    obtain ⟨h₁, h₂⟩ := regular_select.mp h
    obtain ⟨rc, vc⟩ := hc h₁
    rw [rewrite_eq, value_select h₁]
    show Denotes ℓ (mkSelect _ _ _) _
    by_cases hz : Scalar.isZero (value ℓ' c)
    · rw [if_pos hz] at *
      obtain ⟨rb, vb⟩ := hb h₂
      have hs : Regular ℓ (select (rewrite (onSymbols g) c) (rewrite (onSymbols g) a)
          (rewrite (onSymbols g) b)) := regular_select.mpr ⟨rc, by rwa [vc, if_pos hz]⟩
      obtain ⟨hr, hv⟩ := mkSelect_denotes hs
      exact ⟨hr, by rw [hv, value_select rc, vc, if_pos hz, vb]⟩
    · rw [if_neg hz] at *
      obtain ⟨ra, va⟩ := ha h₂
      have hs : Regular ℓ (select (rewrite (onSymbols g) c) (rewrite (onSymbols g) a)
          (rewrite (onSymbols g) b)) := regular_select.mpr ⟨rc, by rwa [vc, if_neg hz]⟩
      obtain ⟨hr, hv⟩ := mkSelect_denotes hs
      exact ⟨hr, by rw [hv, value_select rc, vc, if_neg hz, va]⟩
  | apply _ _ _ | derivative _ _ _ | integral _ _ _ => rw [Regular] at h; exact h.elim

end AnalogCircuit.Expr
