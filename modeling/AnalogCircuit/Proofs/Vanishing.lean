import AnalogCircuit.Proofs.Algebraic
import AnalogCircuit.Proofs.LinearStep
import AnalogCircuit.Proofs.Newton
/-!
# Affine residuals vanish

If residuals are affine in the iterated unknowns, the entries of their Jacobian are the coefficients, wherever no
divisor is zero. Then a step of Newton's method leads to a place at which all residuals are zero, and so does every
further one.
-/

namespace AnalogCircuit

open Expr

variable {α : Type}

/-! ## Affine expressions -/

section

variable [ExactScalar α] {us : List Symbol} {u : Symbol} {v w : Symbol → α} {r : Expr α}

/-- The expression has the value of an affine function of some unknowns, wherever these stand and no divisor is
zero. -/
def Expr.IsAffine (us : List Symbol) (v : Symbol → α) (r : Expr α) : Prop :=
  ∃ (d : α) (c : Symbol → α), ∀ w, Agrees (us.contains ·) v w → Regular (total w) r →
    r.value (total w) = d + (us.map fun u => c u * w u).sum

/-- While one of different unknowns moves, an affine function changes by its coefficient. -/
theorem sum_update (distinct : us.Nodup) (hu : u ∈ us) (c w : Symbol → α) (t : α) :
    (us.map fun x => c x * Function.update w u t x).sum = (us.map fun x => c x * w x).sum - c u * w u + c u * t := by
  induction us with
  | nil => exact absurd hu List.not_mem_nil
  | cons x us ih =>
    obtain ⟨other, distinct⟩ := List.nodup_cons.mp distinct
    rw [List.map_cons, List.map_cons, List.sum_cons, List.sum_cons]
    rcases List.mem_cons.mp hu with rfl | hu
    · have rest : us.map (fun x => c x * Function.update w u t x) = us.map fun x => c x * w x :=
        List.map_congr_left fun y hy => by rw [Function.update_of_ne (ne_of_mem_of_not_mem hy other)]
      rw [rest, Function.update_self]
      ring
    · rw [ih distinct hu, Function.update_of_ne (ne_of_mem_of_not_mem hu other).symm]
      ring

/-- The derivatives of an affine expression are its coefficients. -/
theorem value_diff_of_affine (rational : isRational (us.contains ·) r = true) (distinct : us.Nodup) {d : α}
    {c : Symbol → α} (affine : ∀ w, Agrees (us.contains ·) v w → Regular (total w) r →
      r.value (total w) = d + (us.map fun u => c u * w u).sum)
    (agrees : Agrees (us.contains ·) v w) (regular : Regular (total w) r) (hu : u ∈ us) :
    value (total w) (r.diff u) = c u := by
  have unknown : us.contains u = true := List.contains_iff_mem.mpr hu
  have here : Regular (total (Function.update w u (w u))) r := by rwa [Function.update_eq_self]
  obtain ⟨-, slope⟩ := diff_isSlope (U := (us.contains ·)) (D := {t | Regular (total (Function.update w u t)) r})
    unknown rational fun t ht => ht
  have line : ∀ t ∈ {t | Regular (total (Function.update w u t)) r}, value (total (Function.update w u t)) r =
      d + ((us.map fun x => c x * w x).sum - c u * w u) + c u * t := by
    intro t ht
    rw [affine _ (agrees.update unknown t) ht, sum_update distinct hu]
    ring
  have coefficient := slope.eq_of_affine (infinite_regular unknown rational here) line here
  rwa [Function.update_eq_self] at coefficient

end

namespace NewtonIteration.Evaluates

variable [Scalar α] {n : NewtonIteration α} {ℓ : Symbol → Option α} {xs ys : List α} {J K : List (List α)}

/-- An iteration has one value only. -/
theorem unique (h : n.Evaluates ℓ xs J) (h' : n.Evaluates ℓ ys K) : xs = ys ∧ J = K :=
  ⟨Option.some.inj (h.residuals.symm.trans h'.residuals), Option.some.inj (h.jacobian.symm.trans h'.jacobian)⟩

end NewtonIteration.Evaluates

namespace Program

open Emission

variable [ExactScalar α] {law : UpdateLaw α} {n : NewtonIteration α} {s : Emission α} {l : Loop}
  {rs rs' : Registers α}

/-! ## Unknowns that are read -/

/-- Every iterated unknown is read from the register that the loop writes. -/
def ReadsUnknowns (law : UpdateLaw α) (n : NewtonIteration α) : Prop :=
  ∀ u ∈ n.unknowns, registerOf law u = some (registersOf law u).1

/-- The estimates are the values of the iterated unknowns. -/
theorem estimates_eq (reads : ReadsUnknowns law n) (rs : Registers α) :
    estimates law n rs = n.unknowns.map (valuation law rs) := by
  refine List.map_congr_left fun u hu => ?_
  change rs.value (registersOf law u).1 = (Option.map rs.value (registerOf law u)).getD 0
  rw [reads u hu]
  rfl

/-- If only registers of iterated unknowns have changed, the other symbols have kept their values. -/
theorem agrees_of_sameBesides (reads : ReadsUnknowns law n) (same : SameBesides law n rs rs') :
    Agrees (n.unknowns.contains ·) (valuation law rs) (valuation law rs') := by
  intro x hx
  change (Option.map rs'.value (registerOf law x)).getD 0 = (Option.map rs.value (registerOf law x)).getD 0
  cases found : registerOf law x with
  | none => rfl
  | some r =>
    refine same r (registerOf_lt found) fun iterated => ?_
    obtain ⟨u, hu, rfl⟩ := List.mem_map.mp iterated
    -- the register of an unknown belongs to the unknown alone
    obtain ⟨y, hy, rfl⟩ := eq_of_registerOf found
    obtain ⟨z, hz, hu'⟩ := eq_of_registerOf (reads u hu)
    obtain rfl : y = z := Option.some.inj (hy.symm.trans hz)
    rw [← hu', ← Bool.not_eq_true, List.contains_iff_mem] at hx
    exact hx hu

/-! ## Steps -/

/-- What coefficients make of changes of the unknowns. -/
theorem sum_zipWith_sub (c w w' : Symbol → α) (us : List Symbol) :
    ((us.map c).zipWith (· * ·) ((us.map w).zipWith (· - ·) (us.map w'))).sum =
      (us.map fun u => c u * w u).sum - (us.map fun u => c u * w' u).sum := by
  induction us with
  | nil => exact (sub_zero 0).symm
  | cons u us ih =>
    simp only [List.map_cons, List.zipWith_cons_cons, List.sum_cons, ih]
    ring

/-- All residuals are zero. -/
def VanishAt (law : UpdateLaw α) (n : NewtonIteration α) (rs : Registers α) : Prop :=
  ∀ r ∈ n.residuals, r.evaluate (symbols law rs) = some 0

/-- No divisor of a residual is zero. -/
def RegularAt (law : UpdateLaw α) (n : NewtonIteration α) (rs : Registers α) : Prop :=
  ∀ r ∈ n.residuals, Regular (total (valuation law rs)) r

/-- The residuals are affine in the iterated unknowns, which are different and read from their registers; all other
symbols have the values that `v` gives them. -/
structure AffineAt (law : UpdateLaw α) (n : NewtonIteration α) (v : Symbol → α) (rs : Registers α) : Prop where
  algebraic : ∀ r ∈ n.residuals, r.isAlgebraic false = true
  bound : ∀ r ∈ n.residuals, r.dependsOn (!isBound law ·) = false
  affine : ∀ r ∈ n.residuals, r.IsAffine n.unknowns v
  distinct : n.unknowns.Nodup
  reads : ReadsUnknowns law n
  agrees : Agrees (n.unknowns.contains ·) v (valuation law rs)

namespace AffineAt

variable {v : Symbol → α} {r : Expr α} {d : α} {c : Symbol → α}

/-- A step changes nothing but the iterated unknowns. -/
theorem of_sameBesides (h : AffineAt law n v rs) (same : SameBesides law n rs rs') : AffineAt law n v rs' :=
  { h with agrees := fun x hx => (agrees_of_sameBesides h.reads same x hx).trans (h.agrees x hx) }

theorem isRational (h : AffineAt law n v rs) (hr : r ∈ n.residuals) :
    r.isRational (n.unknowns.contains ·) = true := (isRow_of_isAlgebraic (h.algebraic r hr)).rational

/-- A row of the Jacobian consists of coefficients. -/
theorem row_eq (h : AffineAt law n v rs) (regular : RegularAt law n rs) (hr : r ∈ n.residuals)
    (affine : ∀ w, Agrees (n.unknowns.contains ·) v w → Regular (total w) r →
      r.value (total w) = d + (n.unknowns.map fun u => c u * w u).sum) :
    (n.unknowns.map fun u => value (symbols law rs) (r.diff u)) = n.unknowns.map c := by
  refine List.map_congr_left fun u hu => ?_
  have bound : (r.diff u).dependsOn (!isBound law ·) = false :=
    (hereditary_dependsOn _).diff (List.contains_iff_mem.mpr hu) (h.isRational hr) (h.bound r hr)
  rw [value, ← evaluate_valuation rs bound]
  exact value_diff_of_affine (h.isRational hr) h.distinct affine h.agrees (regular r hr) hu

/-- The Jacobian does not depend on the iterated unknowns. -/
theorem jacobianValues_eq (h : AffineAt law n v rs) (h' : AffineAt law n v rs') (regular : RegularAt law n rs)
    (regular' : RegularAt law n rs') :
    n.jacobianValues (symbols law rs') = n.jacobianValues (symbols law rs) := by
  refine List.map_congr_left fun r hr => ?_
  obtain ⟨d, c, affine⟩ := h.affine r hr
  rw [h.row_eq regular hr affine, h'.row_eq regular' hr affine]

/-- A step of Newton's method leads to a place where the residuals are zero. -/
theorem vanish (h : AffineAt law n v rs) (regular : RegularAt law n rs) (regular' : RegularAt law n rs')
    (same : SameBesides law n rs rs')
    (solves : Factors.applied (n.jacobianValues (symbols law rs)) (changes law n rs rs') =
      n.residualValues (symbols law rs)) : VanishAt law n rs' := by
  intro r hr
  obtain ⟨d, c, affine⟩ := h.affine r hr
  have h' := h.of_sameBesides same
  have before : value (symbols law rs) r = d + (n.unknowns.map fun u => c u * valuation law rs u).sum := by
    rw [value, ← evaluate_valuation rs (h.bound r hr)]
    exact affine _ h.agrees (regular r hr)
  have step : (n.unknowns.map fun u => c u * valuation law rs u).sum -
      (n.unknowns.map fun u => c u * valuation law rs' u).sum = value (symbols law rs) r := by
    rw [Factors.applied, NewtonIteration.jacobianValues, NewtonIteration.residualValues, List.map_map] at solves
    have row := List.map_inj_left.mp solves r hr
    dsimp only [Function.comp_apply] at row
    rwa [h.row_eq regular hr affine, changes, estimates_eq h.reads, estimates_eq h.reads,
      sum_zipWith_sub] at row
  have zero : r.value (total (valuation law rs')) = 0 := by
    rw [affine _ h'.agrees (regular' r hr)]
    linear_combination -before - step
  rw [← evaluate_valuation rs' (h.bound r hr), evaluate_eq (regular' r hr), zero]

end AffineAt

/-! ## Runs -/

variable [LinearOrder α] [OrderedScalar α] {v : Symbol → α}

/-- A correction makes affine residuals zero, and zero they stay, if the Jacobian can be factored in the beginning and
no divisor is zero wherever the iteration could end. -/
theorem LoopComputes.vanish_iterate (h : LoopComputes law n s l) (proper : Proper law n) {tolerance : α}
    {budget : Nat} (running : Running s rs) (affine : AffineAt law n v rs)
    (factorable : Factorable n (n.jacobianValues (symbols law rs)))
    (regular : ∀ b ≤ budget, RegularAt law n (l.iterate tolerance b rs)) (start : 0 < budget ∨ VanishAt law n rs) :
    VanishAt law n (l.iterate tolerance budget rs) := by
  induction budget generalizing rs with
  | zero => exact start.resolve_left (Nat.lt_irrefl 0)
  | succ budget ih =>
    obtain ⟨ds, found, length, solves⟩ := h.corrections?_eq_some proper running factorable
    have iterate (b : Nat) : l.iterate tolerance (b + 1) rs =
        if Scalar.lt (l.largest ds) tolerance then l.correct ds (executeAll l.body rs)
        else l.iterate tolerance b (l.correct ds (executeAll l.body rs)) := by
      rw [Loop.iterate]
      dsimp only
      rw [found]
    have here : RegularAt law n rs := regular 0 (Nat.zero_le _)
    have next : RegularAt law n (l.correct ds (executeAll l.body rs)) := by
      have one := regular 1 (Nat.succ_le_succ (Nat.zero_le _))
      rwa [iterate, Loop.iterate, ite_self] at one
    have step := h.newtonStep_correct proper running factorable length solves
    have affine' := affine.of_sameBesides step.others
    have vanish := affine.vanish here next step.others
      (by rwa [h.changes_correct proper running length affine.distinct])
    rw [iterate]
    split
    · exact vanish
    · next large =>
      refine ih (h.running_correct proper running length) affine' ?_ (fun b hb => ?_) (.inr vanish)
      · rwa [affine.jacobianValues_eq affine' here next]
      · have later := regular (b + 1) (Nat.succ_le_succ hb)
        rwa [iterate, if_neg large] at later

end Program

end AnalogCircuit
