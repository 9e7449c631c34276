import AnalogCircuit.Proofs.Chord
/-!
# Linear rows made of pieces

A row is taken for linear if its partial derivatives mention no unknown. The derivatives of what jumps are zero, so that
such a row is affine between valuations on the same steps of it, and not across a jump. The argument is the one for
rational rows: on the line from one valuation to the other the derivatives, read as chords, make up the slope of the
chord, and a rational function with a constant slope is affine.
-/

namespace AnalogCircuit

namespace Expr

variable {α : Type} [ExactScalar α] {U : Symbol → Bool} {u : Symbol} {again? : Option (Expr α → Expr α)}

/-! ## Regularity of derivatives -/

/-- A function that bends is differentiated without new divisors. -/
theorem regular_diffStep_bends {ℓ : Symbol → Option α} {f : Builtin} {args : List (Expr α)} (bends : f.bends = true)
    (regular : Regular ℓ (call f args)) (parts : ∀ x ∈ args, Regular ℓ (diffStep u again? x)) :
    Regular ℓ (diffStep u again? (call f args)) := by
  obtain ⟨-, arity, defined⟩ := regular_call.mp regular
  cases occurs : (call f args).contains u with
  | false =>
    rw [diffStep_eq_zero occurs]
    exact regular_num 0
  | true =>
    rcases bends_cases bends arity with ⟨x, rfl, rfl⟩ | ⟨a, b, c, chooses, rfl⟩
    · have sign : Regular ℓ (call .sign [x]) := regular_call.mpr ⟨by decide, rfl, defined⟩
      rw [diffStep_abs occurs]
      exact (mul_denotes (mkCall_denotes sign).1 (parts x List.mem_cons_self)).1
    · obtain ⟨ha, hb⟩ := List.forall_mem_cons.mp defined
      have hb := List.forall_mem_singleton.mp hb
      have condition := (mkCompare_denotes (c := c) (regular_compare.mpr ⟨ha, hb⟩)).1
      rw [diffStep_choice chooses occurs]
      refine (mkSelect_denotes (regular_select.mpr ⟨condition, ?_⟩)).1
      split
      · exact parts b (by simp)
      · exact parts a (by simp)

/-- The derivative of an expression made of pieces has a value wherever the expression has one. -/
theorem regular_diffStep {ℓ : Symbol → Option α} (hu : U u = true) {e : Expr α} (piecewise : isPiecewise U e = true)
    (regular : Regular ℓ e) : Regular ℓ (diffStep u again? e) := by
  have zero : Regular ℓ (zero : Expr α) := regular_num 0
  -- no new divisors: below a choice, the derivative is regular because the branch is that is taken
  induction e with
  | num c => exact (diffStep_eq_zero (e := num c) rfl) ▸ zero
  | sym s =>
    rw [diffStep]
    split
    · exact zero
    · exact regular_num 1
  | sum ts ih =>
    have piecewise := isPiecewiseList_iff.mp piecewise
    have regular := regular_sum.mp regular
    exact ((evaluation ℓ).diffStep_sum fun x hx => ih x hx (piecewise x hx) (regular x hx)).1
  | product fs ih =>
    have piecewise := isPiecewiseList_iff.mp piecewise
    have regular := regular_product.mp regular
    exact ((evaluation ℓ).diffStep_product fun x hx =>
      ⟨regular x hx, ih x hx (piecewise x hx) (regular x hx)⟩).1
  | power b e hb _ =>
    obtain ⟨base, -, integral⟩ := (hereditary_isPiecewise U).power b e |>.mp piecewise
    obtain ⟨_, rfl, hn⟩ := integral trivial
    obtain ⟨n, rfl⟩ := Scalar.isIntegral_iff.mp hn
    obtain ⟨_, -, part, -⟩ := regular_power.mp regular
    exact ((evaluation ℓ).diffStep_power regular (hb base part)).1
  | call f args ih =>
    obtain ⟨-, arity, defined⟩ := regular_call.mp regular
    cases isPiecewise_call.mp piecewise with
    | jumps jumps => rwa [diffStep_jumps jumps arity]
    | free free => rwa [diffStep_eq_zero (contains_eq_false hu free)]
    | bends bends piecewise =>
      exact regular_diffStep_bends bends regular fun x hx => ih x hx (piecewise x hx) (defined x hx)
  | compare c a b _ _ => rwa [diffStep_compare]
  | select c a b _ ha hb =>
    obtain ⟨piecewise_a, piecewise_b⟩ := Bool.and_eq_true_iff.mp piecewise
    obtain ⟨condition, taken⟩ := regular_select.mp regular
    cases occurs : (select c a b).contains u with
    | false => rwa [diffStep_eq_zero occurs]
    | true =>
      rw [diffStep_select occurs]
      refine (mkSelect_denotes (regular_select.mpr ⟨condition, ?_⟩)).1
      split
      · next hz =>
        rw [if_pos hz] at taken
        exact hb piecewise_b taken
      · next hz =>
        rw [if_neg hz] at taken
        exact ha piecewise_a taken
  | apply _ _ _ | derivative _ _ _ | integral _ _ _ =>
    rw [Regular] at regular
    exact regular.elim

/-! ## Slopes of chords -/

section

variable {v w : Symbol → α} {t : α}

/-- A function that bends is differentiated by its slopes and the derivatives of its arguments. -/
theorem frame_diffStep_bends {f : Builtin} {args : List (Expr α)} (bends : f.bends = true)
    (arity : args.length = f.arity) (regular : ∀ x ∈ args, (frame v w t).Regular (diffStep u again? x)) :
    (frame v w t).Denotes (diffStep u again? (call f args))
      (combine (slopes v w f args) (fun x => (frame v w t).value (diffStep u again? x)) args) := by
  cases occurs : (call f args).contains u with
  | false =>
    have absent := dependsOnList_eq_false_iff.mp occurs
    have vanish : combine (slopes v w f args) (fun x => (frame v w t).value (diffStep u again? x)) args =
        combine (slopes v w f args) (fun _ => 0) args :=
      combine_congr fun x hx => by rw [diffStep_eq_zero (absent x hx), Interpretation.denotes_zero.2]
    rw [diffStep_eq_zero occurs, vanish]
    simpa [combine] using Interpretation.denotes_zero
  | true =>
    rcases bends_cases bends arity with ⟨x, rfl, rfl⟩ | ⟨a, b, c, chooses, rfl⟩
    · obtain ⟨sign, slope⟩ := frame_mkCall_sign (v := v) (w := w) (t := t) x
      have factors : ∀ e ∈ [mkCall .sign [x], diffStep u again? x], (frame v w t).Regular e :=
        List.forall_mem_cons.mpr ⟨sign, List.forall_mem_singleton.mpr (regular x List.mem_cons_self)⟩
      rw [diffStep_abs occurs]
      obtain ⟨product, value⟩ := Interpretation.mkProduct_denotes factors
      refine ⟨product, value.trans ?_⟩
      simp [combine, slopes, slope]
    · obtain ⟨ha, hb⟩ := List.forall_mem_cons.mp regular
      have hb := List.forall_mem_singleton.mp hb
      rw [diffStep_choice chooses occurs, slopes_choice chooses]
      obtain ⟨choice, value⟩ := frame_mkSelect (c := mkCompare c a b) ⟨fun _ => ha, fun _ => hb⟩
      refine ⟨choice, value.trans ?_⟩
      rw [mean, weight_mkCompare]
      simp [combine]

/-- The unknowns move from one valuation to the other, and expressions are read as their chords. -/
def travel (v w : Symbol → α) (us : List Symbol) (D : Set α) : Motion α := ⟨D, us, fun u => w u - v u, frame v w⟩

variable {us : List Symbol} {D : Set α} {again? : Symbol → Option (Expr α → Expr α)}

/-- Coefficients go through weighted sums. -/
theorem combine_sum_map {γ : Type} (cs : List α) (c : γ → α) (g : γ → Expr α → α) (us : List γ) (es : List (Expr α)) :
    combine cs (fun x => (us.map fun u => c u * g u x).sum) es = (us.map fun u => c u * combine cs (g u) es).sum := by
  unfold combine
  rw [← Motion.sum_map_comm]
  refine congrArg List.sum (List.map_congr_left fun p _ => ?_)
  rw [← List.sum_map_mul_left]
  refine congrArg List.sum (List.map_congr_left fun u _ => ?_)
  ring

theorem differentiates_bends {f : Builtin} {args : List (Expr α)} (bends : f.bends = true)
    (arity : args.length = f.arity) (parts : ∀ x ∈ args, (travel v w us D).Differentiates again? x)
    (regular : ∀ t ∈ D, ∀ x ∈ args, (frame v w t).Regular x) :
    (travel v w us D).Differentiates again? (call f args) := by
  have rule (u : Symbol) (hu : u ∈ us) (t : α) (ht : t ∈ D) :=
    frame_diffStep_bends (v := v) (w := w) bends arity fun x hx => (parts x hx).regular u hu t ht
  refine ⟨fun u hu t ht => (rule u hu t ht).1, ?_⟩
  have slope : HasSlope D (fun t => combine (slopes v w f args) (frame v w t).value args) fun t =>
      combine (slopes v w f args) ((travel v w us D).change again? t) args :=
    HasSlope.sum fun p hp => (parts p.2 (List.of_mem_zip hp).2).slope.scale p.1
  refine ((HasSlope.const (offset v w f args)).add slope).congr (fun t ht => ?_) fun t ht => ?_
  · exact (frame_call fun p hp => regular t ht p.2 (List.of_mem_zip hp).2).2
  · rw [zero_add]
    refine Eq.trans (congrArg List.sum (List.map_congr_left fun u hu => ?_)) (combine_sum_map _ _ _ us args).symm
    exact congrArg _ (rule u hu t ht).2

/-- A choice is differentiated like the branch that is taken at both ends. -/
theorem frame_diffStep_select {again? : Option (Expr α → Expr α)} {c a b : Expr α}
    (h : Connected (total v) (total w) (select c a b))
    (regular : (frame v w t).Regular (diffStep u again? (if Scalar.isZero (value (total w) c) then b else a))) :
    (frame v w t).Denotes (diffStep u again? (select c a b))
      ((frame v w t).value (diffStep u again? (if Scalar.isZero (value (total w) c) then b else a))) := by
  have weight := weight_eq h
  cases occurs : (select c a b).contains u with
  | false =>
    obtain ⟨-, absent⟩ := Bool.or_eq_false_iff.mp occurs
    obtain ⟨absent_a, absent_b⟩ := Bool.or_eq_false_iff.mp absent
    have vanish : diffStep u again? (if Scalar.isZero (value (total w) c) then b else a) = zero := by
      split
      · exact diffStep_eq_zero absent_b
      · exact diffStep_eq_zero absent_a
    rw [diffStep_eq_zero occurs, vanish]
    exact ⟨Interpretation.denotes_zero.1, rfl⟩
  | true =>
    rw [diffStep_select occurs]
    split at regular
    · next hz =>
      rw [if_pos hz] at weight ⊢
      have branches : BranchesRegular v w t c (diffStep u again? a) (diffStep u again? b) :=
        ⟨fun some => absurd weight some, fun _ => regular⟩
      rw [(branches.of_zero weight).2]
      exact frame_mkSelect branches
    · next hz =>
      rw [if_neg hz] at weight ⊢
      have branches : BranchesRegular v w t c (diffStep u again? a) (diffStep u again? b) :=
        ⟨fun _ => regular, fun some => absurd weight some⟩
      rw [(branches.of_one weight).2]
      exact frame_mkSelect branches

theorem differentiates_select {c a b : Expr α} (h : Connected (total v) (total w) (select c a b))
    (taken : (travel v w us D).Differentiates again? (if Scalar.isZero (value (total w) c) then b else a)) :
    (travel v w us D).Differentiates again? (select c a b) := by
  have rule (u : Symbol) (hu : u ∈ us) (t : α) (ht : t ∈ D) :=
    frame_diffStep_select h (taken.regular u hu t ht)
  refine ⟨fun u hu t ht => (rule u hu t ht).1, taken.slope.congr (fun t _ => ?_) fun t ht => ?_⟩
  · exact congrArg (value (place t)) (chord_select h)
  · exact congrArg List.sum (List.map_congr_left fun u hu => congrArg _ (rule u hu t ht).2)

/-- An unknown changes at its speed. -/
theorem differentiates_sym (distinct : us.Nodup) {s : Symbol} (hs : s ∈ us) :
    (travel v w us D).Differentiates again? (sym s) := by
  have own : diffStep s (again? s) (sym s) = (one : Expr α) := by simp [diffStep, contains, dependsOn]
  have other {u : Symbol} (hu : u ≠ s) : diffStep u (again? u) (sym s) = (zero : Expr α) :=
    diffStep_eq_zero (beq_false_of_ne hu.symm)
  refine ⟨fun u _ t _ => ?_, ?_⟩
  · by_cases same : u = s
    · rw [same, own]
      exact Interpretation.denotes_one.1
    · rw [other same]
      exact Interpretation.denotes_zero.1
  · refine ((HasSlope.const (v s)).add (HasSlope.id.scale (w s - v s))).congr (fun t _ => (frame_sym s).2) fun t _ => ?_
    have once : (travel v w us D).unknowns.count s = 1 := List.count_eq_one_of_mem distinct hs
    unfold Motion.change
    rw [List.sum_map_eq_nsmul_single s, once, one_smul, own, Interpretation.denotes_one.2]
    · exact (zero_add _).symm
    · intro u hu _
      rw [other hu, Interpretation.denotes_zero.2, mul_zero]

/-- Where a connected expression made of pieces is read as its chord, its derivatives make up the slope. -/
theorem differentiates [LawfulBuiltins α] (unknown : ∀ s, U s = true ↔ s ∈ us) (distinct : us.Nodup)
    (agrees : Agrees U v w) {e : Expr α} (piecewise : isPiecewise U e = true)
    (h : Connected (total v) (total w) e) (regular : ∀ t ∈ D, (frame v w t).Regular e) :
    (travel v w us D).Differentiates again? e := by
  have fixed {e : Expr α} (free : e.dependsOn U = false) (h : Connected (total v) (total w) e) :
      (travel v w us D).Differentiates again? e := by
    refine .constant (c := value (total w) e) (fun u hu => ?_) fun t _ => ?_
    · exact diffStep_eq_zero (contains_eq_false ((unknown u).mpr hu) free)
    · refine (frame_denotes (.inr rfl) (fun s hs => ?_) free h).2
      rw [agrees s hs]
      ring
  -- below a choice the induction goes on only in the branch that is taken at both ends; the other one need not have
  -- values on the line
  induction e with
  | num c => exact fixed rfl h
  | sym s =>
    cases hs : U s with
    | true => exact differentiates_sym distinct ((unknown s).mp hs)
    | false => exact fixed hs h
  | sum ts ih =>
    have piecewise := isPiecewiseList_iff.mp piecewise
    have regular (t : α) (ht : t ∈ D) := (frame v w t).regular_sum.mp (regular t ht)
    exact .sum (fun x hx => ih x hx (piecewise x hx) (h.sum hx) fun t ht => regular t ht x hx) regular
  | product fs ih =>
    have piecewise := isPiecewiseList_iff.mp piecewise
    have regular (t : α) (ht : t ∈ D) := (frame v w t).regular_product.mp (regular t ht)
    exact .product (fun x hx => ih x hx (piecewise x hx) (h.product hx) fun t ht => regular t ht x hx) regular
  | power b e hb _ =>
    obtain ⟨base, -, integral⟩ := (hereditary_isPiecewise U).power b e |>.mp piecewise
    obtain ⟨n, rfl, hn⟩ := integral trivial
    have part (t : α) (ht : t ∈ D) : (frame v w t).Regular b := by
      obtain ⟨_, -, hr, -, -⟩ := (frame v w t).regular_power.mp (regular t ht)
      exact hr
    exact .power (hb base h.power part) regular hn
  | call f args ih =>
    obtain ⟨-, arity, -⟩ := regular_call.mp h.first
    cases isPiecewise_call.mp piecewise with
    | jumps jumps =>
      exact .constant (fun u _ => diffStep_jumps jumps arity) fun t _ => (frame_straight (Builtin.bends_of_jumps jumps) args).2
    | free free => exact fixed free h
    | bends bends piecewise =>
      have parts (t : α) (ht : t ∈ D) (x : Expr α) (hx : x ∈ args) : (frame v w t).Regular x :=
        regular_of_frame_call bends arity (regular t ht) hx
      refine differentiates_bends bends arity (fun x hx => ?_) parts
      exact ih x hx (piecewise x hx) (h.bends bends hx) fun t ht => parts t ht x hx
  | compare c a b _ _ =>
    exact .constant (fun u _ => diffStep_compare c a b) fun t _ =>
      value_num (ℓ := place t) (value (total w) (compare c a b))
  | select c a b _ ha hb =>
    obtain ⟨piecewise_a, piecewise_b⟩ := Bool.and_eq_true_iff.mp piecewise
    have taken := h.select
    refine differentiates_select h ?_
    simp only [frame_regular_iff, chord_select h] at regular
    split at regular
    · next hz =>
      rw [if_pos hz] at taken ⊢
      exact hb piecewise_b taken regular
    · next hz =>
      rw [if_neg hz] at taken ⊢
      exact ha piecewise_a taken regular
  | apply _ _ _ | derivative _ _ _ | integral _ _ _ =>
    have regular := h.first
    rw [Regular] at regular
    exact regular.elim

/-- If the derivatives mention no unknown, the value changes by the derivatives times what the unknowns change by. -/
theorem Connected.value_eq [LawfulBuiltins α] (unknown : ∀ s, U s = true ↔ s ∈ us) (distinct : us.Nodup)
    (agrees : Agrees U v w) {e : Expr α} (piecewise : isPiecewise U e = true)
    (linear : ∀ u ∈ us, (e.diff u).dependsOn U = false) (h : Connected (total v) (total w) e) :
    value (total w) e = value (total v) e + (us.map fun u => (w u - v u) * value (total w) (e.diff u)).sum := by
  obtain ⟨again?, diff_eq⟩ := exists_diff_eq e
  have moving : (travel v w us (line v w e)).Differentiates again? e :=
    differentiates unknown distinct agrees piecewise h fun t ht => ht
  have constant (t : α) : (travel v w us (line v w e)).change again? t e =
      (us.map fun u => (w u - v u) * value (total w) (e.diff u)).sum := by
    -- the derivatives mention no unknown, so that all along the line they are read as their values
    refine congrArg List.sum (List.map_congr_left fun u hu => congrArg _ ?_)
    have regular : Regular (total v) (e.diff u) := by
      rw [diff_eq]
      exact regular_diffStep ((unknown u).mpr hu) piecewise h.first
    have fixed := regular.connected (fun s hs => congrArg some (agrees s hs).symm) (linear u hu)
    rw [← diff_eq]
    refine (frame_denotes (.inr rfl) (fun s hs => ?_) (linear u hu) fixed).2
    rw [agrees s hs]
    ring
  have first := frame_first h
  have second := frame_second h
  have ends : (frame v w 1).value e = (frame v w 0).value e + _ * (1 - 0) :=
    (moving.slope.congr (fun _ _ => rfl) fun t _ => (constant t).symm).eq_add_of_const (infinite_line h)
      first.1 second.1
  rw [← second.2, ← first.2, ends, sub_zero, mul_one]

end

end Expr

namespace Partition

open Expr

variable {α : Type} [ExactScalar α]

/-- All unknowns are set to zero. -/
def zeroed (unknowns : List Symbol) (v : Symbol → α) (s : Symbol) : α := if s ∈ unknowns then 0 else v s

theorem agrees_zeroed (unknowns : List Symbol) (v : Symbol → α) :
    Agrees (unknowns.contains ·) (zeroed unknowns v) v := by
  intro s hs
  rw [zeroed, if_neg (by simpa using hs)]

/-- In a row that is taken for linear no derivative mentions an unknown. -/
theorem dependsOn_diff {unknowns : List Symbol} {r : Expr α} (linear : nonlinearIn unknowns r = []) {u : Symbol}
    (hu : u ∈ unknowns) : (r.diff u).dependsOn (unknowns.contains ·) = false := by
  have row := List.filter_eq_nil_iff.mp linear u hu
  cases occurs : r.contains u with
  | false => rw [diff_eq_zero occurs]; rfl
  | true => simpa [occurs] using row

variable {unknowns : List Symbol} {r : Expr α} {v w : Symbol → α}

theorem regular_diff (piecewise : r.isPiecewise (unknowns.contains ·) = true) (regular : Regular (total v) r)
    {u : Symbol} (hu : u ∈ unknowns) : Regular (total v) (r.diff u) := by
  obtain ⟨again?, diff_eq⟩ := exists_diff_eq r
  rw [diff_eq]
  exact regular_diffStep (U := (unknowns.contains ·)) (List.contains_iff_mem.mpr hu) piecewise regular

variable [LawfulBuiltins α]

/-- Between valuations on the same steps of it, a row that is taken for linear changes by its derivatives times what the
unknowns change by. -/
theorem change_of_nonlinearIn (piecewise : r.isPiecewise (unknowns.contains ·) = true)
    (linear : nonlinearIn unknowns r = []) (agrees : Agrees (unknowns.contains ·) v w)
    (h : Connected (total v) (total w) r) :
    value (total w) r =
      value (total v) r + (unknowns.dedup.map fun u => (w u - v u) * value (total w) (r.diff u)).sum := by
  refine h.value_eq (U := (unknowns.contains ·)) (fun s => ?_) (List.nodup_dedup _) agrees piecewise fun u hu => ?_
  · rw [List.contains_iff_mem, List.mem_dedup]
  · exact dependsOn_diff linear (List.mem_dedup.mp hu)

/-- A row that is taken for linear is affine in the unknowns, as far as nothing in it jumps on the way from zero. -/
theorem value_eq_of_nonlinearIn (piecewise : r.isPiecewise (unknowns.contains ·) = true)
    (linear : nonlinearIn unknowns r = []) (h : Connected (total (zeroed unknowns v)) (total v) r) :
    value (total v) r = (unknowns.dedup.map fun u => value (total v) (r.diff u) * v u).sum +
      value (total (zeroed unknowns v)) r := by
  rw [change_of_nonlinearIn piecewise linear (agrees_zeroed unknowns v) h, add_comm]
  refine congrArg (· + _) (congrArg List.sum (List.map_congr_left fun u hu => ?_))
  rw [zeroed, if_pos (List.mem_dedup.mp hu), sub_zero, mul_comm]

/-- A row in which no unknown is in anything that jumps is affine wherever it is regular. -/
theorem value_eq_of_jumpFree (piecewise : r.isPiecewise (unknowns.contains ·) = true)
    (linear : nonlinearIn unknowns r = []) (jumpFree : r.jumpFree (unknowns.contains ·) = true)
    (regular : Regular (total v) r) (zero : Regular (total (zeroed unknowns v)) r) :
    value (total v) r = (unknowns.dedup.map fun u => value (total v) (r.diff u) * v u).sum +
      value (total (zeroed unknowns v)) r := by
  have agree (s : Symbol) (hs : unknowns.contains s = false) : total (zeroed unknowns v) s = total v s :=
    congrArg some (agrees_zeroed unknowns v s hs).symm
  exact value_eq_of_nonlinearIn piecewise linear (connected_of_jumpFree agree jumpFree zero regular)

/-- The solution of a row takes the row away. -/
theorem solveFor_denotes_of_nonlinearIn (piecewise : r.isPiecewise (unknowns.contains ·) = true)
    (linear : nonlinearIn unknowns r = []) {u : Symbol} (hu : u ∈ unknowns) {x : α}
    (pivot : value (total v) (r.diff u) ≠ 0)
    (hx : x = -value (total (Function.update v u 0)) r / value (total v) (r.diff u))
    (h : Connected (total (Function.update v u 0)) (total (Function.update v u x)) r) :
    Denotes (total v) (solveFor u r) x ∧ Denotes (total v) (r.replace u (solveFor u r)) 0 := by
  have unknown : (unknowns.contains u) = true := List.contains_iff_mem.mpr hu
  have moved (y : α) : Agrees (unknowns.contains ·) v (Function.update v u y) :=
    (Agrees.refl _ v).update unknown y
  have free := dependsOn_diff linear hu
  have regular : Regular (total v) (r.diff u) :=
    (regular_congr (fun s hs => congrArg some (moved 0 s hs).symm) free).mpr (regular_diff piecewise h.first hu)
  have solution : Denotes (total v) (solveFor u r) x := by
    obtain ⟨hr, hv⟩ := replace_denotes (denotes_zero (ℓ := total v)) h.first
    obtain ⟨hn, hm⟩ := neg_denotes hr
    obtain ⟨hd, hq⟩ := div_denotes hn regular pivot
    exact ⟨hd, by rw [hx, ← hv, ← hm]; exact hq⟩
  refine ⟨solution, ?_⟩
  obtain ⟨replaced, value_replaced⟩ := replace_denotes solution h.second
  refine ⟨replaced, value_replaced.trans ?_⟩
  -- from zero to the solution only this unknown moves, and so the row changes by minus its value at zero
  have apart : Agrees (unknowns.contains ·) (Function.update v u 0) (Function.update v u x) := fun s hs => by
    rw [moved x s hs, moved 0 s hs]
  have once : unknowns.dedup.count u = 1 :=
    List.count_eq_one_of_mem (List.nodup_dedup _) (List.mem_dedup.mpr hu)
  rw [change_of_nonlinearIn piecewise linear apart h, List.sum_map_eq_nsmul_single u, once, one_smul,
    Function.update_self, Function.update_self, (moved x).value_eq free, hx]
  · field_simp
    ring
  · intro s hs _
    rw [Function.update_of_ne hs, Function.update_of_ne hs, sub_self, zero_mul]

/-- As far as nothing in it jumps on the way, a row that is taken for linear is affine in the unknowns, and replacing an
unknown by its solution takes the row away. -/
theorem linear_of_nonlinearIn (piecewise : r.isPiecewise (unknowns.contains ·) = true)
    (linear : nonlinearIn unknowns r = []) (v : Symbol → α) :
    (Connected (total (zeroed unknowns v)) (total v) r →
      (∀ u ∈ unknowns, Regular (total v) (r.diff u)) ∧
        value (total v) r = (unknowns.dedup.map fun u => value (total v) (r.diff u) * v u).sum +
          value (total (zeroed unknowns v)) r) ∧
      ∀ u ∈ unknowns, value (total v) (r.diff u) ≠ 0 →
        ∀ x, x = -value (total (Function.update v u 0)) r / value (total v) (r.diff u) →
          Connected (total (Function.update v u 0)) (total (Function.update v u x)) r →
            Denotes (total v) (solveFor u r) x ∧ Denotes (total v) (r.replace u (solveFor u r)) 0 := by
  refine ⟨fun h => ⟨fun u hu => ?_, value_eq_of_nonlinearIn piecewise linear h⟩, fun u hu pivot x hx h => ?_⟩
  · exact regular_diff piecewise h.second hu
  · exact solveFor_denotes_of_nonlinearIn piecewise linear hu pivot hx h

/-- `2*x + if(x < 10, y, y + 1) - 4`, a row that jumps where `x` reaches ten. -/
def steppedRow : Expr ℚ :=
  mkSum [mkProduct [num 2, named "x"],
    mkSelect (mkCompare .lt (named "x") (num 10)) (named "y") (mkSum [named "y", num 1]), num (-4)]

/-- The unknowns of the row. -/
def steppedUnknowns : List Symbol := [.named "x", .named "y"]

/-- `x = 3`, and everything else is five. -/
def threeAndFive (s : Symbol) : ℚ := if s = .named "x" then 3 else 5

theorem linear_of_nonlinearIn_stepped :
    (value (total threeAndFive) steppedRow =
        (steppedUnknowns.dedup.map fun u => value (total threeAndFive) (steppedRow.diff u) * threeAndFive u).sum +
          value (total (zeroed steppedUnknowns threeAndFive)) steppedRow) ∧
      Denotes (total threeAndFive) (steppedRow.replace (.named "x") (solveFor (.named "x") steppedRow)) 0 := by
  have piecewise : steppedRow.isPiecewise (steppedUnknowns.contains ·) = true := by decide +kernel
  have linear : nonlinearIn steppedUnknowns steppedRow = [] := by decide +kernel
  obtain ⟨affine, solves⟩ := linear_of_nonlinearIn piecewise linear threeAndFive
  refine ⟨(affine ⟨by decide +kernel, by decide +kernel, by decide +kernel⟩).2, ?_⟩
  exact (solves (.named "x") (by decide +kernel) (by decide +kernel) (-1 / 2) (by decide +kernel)
    ⟨by decide +kernel, by decide +kernel, by decide +kernel⟩).2

/-- `x + sign(x) - 3`, a row that jumps at zero. -/
def jumpingRow : Expr ℚ := mkSum [named "x", mkCall .sign [named "x"], num (-3)]

/-- Everything is two. -/
def two (_ : Symbol) : ℚ := 2

/-- Across the jump the row is not affine, though it is taken for linear, and its solution does not solve it. -/
theorem not_linear_jumping :
    (jumpingRow.isPiecewise ([.named "x"].contains ·) = true ∧ nonlinearIn [.named "x"] jumpingRow = []) ∧
      (Regular (total two) jumpingRow ∧ Regular (total (zeroed [.named "x"] two)) jumpingRow ∧
        Regular (total two) (jumpingRow.diff (.named "x"))) ∧
      (value (total two) jumpingRow = 0 ∧
        value (total two) (jumpingRow.diff (.named "x")) * two (.named "x") +
          value (total (zeroed [.named "x"] two)) jumpingRow = -1) ∧
      value (total two) (solveFor (.named "x") jumpingRow) = 3 ∧
      value (total two) (jumpingRow.replace (.named "x") (solveFor (.named "x") jumpingRow)) = 1 := by
  decide +kernel

end Partition

end AnalogCircuit
