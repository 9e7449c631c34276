import AnalogCircuit.Proofs.Occurrence
/-!
# Expressions made of pieces

Comparisons, choices, signs and roundings jump, and between two jumps they are constant; magnitudes, minima and maxima
only bend. An expression of these and of arithmetic is made of pieces, and two valuations are on the same steps of it
when nothing jumps between them. What bends may do so.
-/

namespace AnalogCircuit

/-- The first number if it is so related to the second, else the second. -/
def Comparison.choose {α : Type} [Scalar α] (c : Comparison) (a b : α) : α := if c.holds a b then a else b

/-- The functions of two arguments that choose one of them, each with the comparison by which it does. -/
inductive Builtin.Chooses : Builtin → Comparison → Prop
  | min : Chooses .min .lt
  | max : Chooses .max .gt

/-- The laws of built-in functions on which their derivatives rest: the magnitude is made by the sign, and minimum and
maximum are chosen by an order that does not change when both sides move alike. -/
class LawfulBuiltins (α : Type) [ExactScalar α] : Prop where
  lt_add_right (a b c : α) : Scalar.lt (a + c) (b + c) = Scalar.lt a b
  abs_eq (a : α) : Scalar.unary .abs a = Scalar.unary .sign a * a
  choose_eq {f : Builtin} {c : Comparison} (h : f.Chooses c) (a b : α) : Scalar.binary f a b = c.choose a b

/-- What is chosen by the order moves along with both sides. -/
theorem Builtin.Chooses.choose_add_right {α : Type} [ExactScalar α] [LawfulBuiltins α] {f : Builtin} {c : Comparison}
    (h : f.Chooses c) (a b d : α) : c.choose (a + d) (b + d) = c.choose a b + d := by
  have same : c.holds (a + d) (b + d) = c.holds a b := by
    cases h with
    | min => exact LawfulBuiltins.lt_add_right a b d
    | max => exact LawfulBuiltins.lt_add_right b a d
  unfold Comparison.choose
  rw [same]
  split <;> rfl

/-- The functions of rational numbers keep the laws. -/
instance : LawfulBuiltins ℚ where
  lt_add_right a b c := by
    show decide (a + c < b + c) = decide (a < b)
    simp
  abs_eq a := by
    show |a| = (if 0 < a then 1 else if a < 0 then -1 else 0) * a
    rcases lt_trichotomy a 0 with h | rfl | h
    · rw [if_neg h.le.not_gt, if_pos h, abs_of_neg h, neg_one_mul]
    · simp
    · rw [if_pos h, abs_of_pos h, one_mul]
  choose_eq h a b := by
    cases h with
    | min =>
      show min a b = if decide (a < b) = true then a else b
      by_cases h : a < b
      · simp [h, h.le]
      · simp [h, not_lt.mp h]
    | max =>
      show max a b = if decide (b < a) = true then a else b
      by_cases h : b < a
      · simp [h, h.le]
      · simp [h, not_lt.mp h]

namespace Builtin

/-- The functions that bend: magnitude, minimum and maximum. -/
def bends : Builtin → Bool
  | abs | min | max => true
  | _ => false

theorem Chooses.arity {f : Builtin} {c : Comparison} (h : f.Chooses c) : f.arity = 2 := by cases h <;> rfl

/-- The functions that jump: the sign and the roundings. -/
def jumps : Builtin → Bool
  | sign | floor | ceiling | round => true
  | _ => false

theorem bends_of_jumps {f : Builtin} (jumps : f.jumps = true) : f.bends = false := by
  cases f with
  | sign | floor | ceiling | round => rfl
  | _ => cases jumps

end Builtin

namespace Expr

variable {α : Type}

/-! ## Pieces -/

mutual

/-- Made of constants, symbols, sums, products, integral powers, comparisons, choices, and functions that jump or bend;
everything else mentions no unknown. -/
def isPiecewise [Scalar α] (unknown : Symbol → Bool) : Expr α → Bool
  | num _ | sym _ | compare _ _ _ => true
  | sum ts | product ts => isPiecewiseList unknown ts
  | power b e =>
    isPiecewise unknown b && match e with
      | num n => Scalar.isIntegral n
      | _ => false
  | call f args => f.jumps || !dependsOnList unknown args || f.bends && isPiecewiseList unknown args
  | select _ a b => isPiecewise unknown a && isPiecewise unknown b
  | e => !e.dependsOn unknown

/-- Every expression of a list is made of pieces. -/
def isPiecewiseList [Scalar α] (unknown : Symbol → Bool) : List (Expr α) → Bool
  | [] => true
  | e :: es => isPiecewise unknown e && isPiecewiseList unknown es

end

theorem isPiecewiseList_iff [Scalar α] {U : Symbol → Bool} {es : List (Expr α)} :
    isPiecewiseList U es = true ↔ ∀ e ∈ es, isPiecewise U e = true := by
  induction es with
  | nil => simp [isPiecewiseList]
  | cons e es ih => simp [isPiecewiseList, ih]

/-- Of what kind a function is in an expression made of pieces. -/
inductive PiecewiseCall [Scalar α] (unknown : Symbol → Bool) (f : Builtin) (args : List (Expr α)) : Prop
  | jumps (h : f.jumps = true)
  | free (h : (call f args).dependsOn unknown = false)
  | bends (h : f.bends = true) (parts : ∀ x ∈ args, isPiecewise unknown x = true)

theorem isPiecewise_call [Scalar α] {U : Symbol → Bool} {f : Builtin} {args : List (Expr α)} :
    isPiecewise U (call f args) = true ↔ PiecewiseCall U f args := by
  rw [isPiecewise, Bool.or_eq_true, Bool.or_eq_true, Bool.and_eq_true, isPiecewiseList_iff, Bool.not_eq_true']
  constructor
  · rintro ((h | h) | ⟨h, parts⟩)
    · exact .jumps h
    · exact .free h
    · exact .bends h parts
  · rintro (h | h | ⟨h, parts⟩)
    · exact .inl (.inl h)
    · exact .inl (.inr h)
    · exact .inr ⟨h, parts⟩

/-- Canonical constructors do not leave the class. -/
theorem hereditary_isPiecewise [Scalar α] (U : Symbol → Bool) :
    Hereditary True fun e : Expr α => isPiecewise U e = true where
  num v := by simp only [isPiecewise]
  sum ts := by simp only [isPiecewise, isPiecewiseList_iff]
  product fs := by simp only [isPiecewise, isPiecewiseList_iff]
  power b e := by
    cases e with
    | num n => simp [isPiecewise, IsIntegral]
    | _ => simp [isPiecewise, IsIntegral]

/-! ## Steps -/

mutual

/-- Whatever jumps has the same value under both valuations, as far as the value is made of it. -/
def sameSteps [Scalar α] (ℓ ℓ' : Symbol → Option α) : Expr α → Bool
  | num _ | sym _ => true
  | sum ts | product ts => sameStepsList ℓ ℓ' ts
  | power b _ => sameSteps ℓ ℓ' b
  | call f args =>
    if f.bends then sameStepsList ℓ ℓ' args else Scalar.eq (value ℓ (call f args)) (value ℓ' (call f args))
  | select c a b =>
    if Scalar.isZero (value ℓ c) then Scalar.isZero (value ℓ' c) && sameSteps ℓ ℓ' b
    else !Scalar.isZero (value ℓ' c) && sameSteps ℓ ℓ' a
  | e => Scalar.eq (value ℓ e) (value ℓ' e)

/-- The valuations are on the same steps of every expression of a list. -/
def sameStepsList [Scalar α] (ℓ ℓ' : Symbol → Option α) : List (Expr α) → Bool
  | [] => true
  | e :: es => sameSteps ℓ ℓ' e && sameStepsList ℓ ℓ' es

end

theorem sameStepsList_iff [Scalar α] {ℓ ℓ' : Symbol → Option α} {es : List (Expr α)} :
    sameStepsList ℓ ℓ' es = true ↔ ∀ e ∈ es, sameSteps ℓ ℓ' e = true := by
  induction es with
  | nil => simp [sameStepsList]
  | cons e es ih => simp [sameStepsList, ih]

/-- A function that bends and has as many arguments as it takes is a magnitude or a choice. -/
theorem bends_cases {f : Builtin} {args : List (Expr α)} (bends : f.bends = true) (arity : args.length = f.arity) :
    (∃ x, f = .abs ∧ args = [x]) ∨ ∃ a b c, f.Chooses c ∧ args = [a, b] := by
  cases f with
  | abs =>
    obtain ⟨x, rfl⟩ := List.length_eq_one_iff.mp arity
    exact .inl ⟨x, rfl, rfl⟩
  | min =>
    obtain ⟨a, b, rfl⟩ := List.length_eq_two.mp arity
    exact .inr ⟨a, b, .lt, .min, rfl⟩
  | max =>
    obtain ⟨a, b, rfl⟩ := List.length_eq_two.mp arity
    exact .inr ⟨a, b, .gt, .max, rfl⟩
  | _ => cases bends

mutual

/-- Unknowns are in nothing that jumps. -/
def jumpFree (unknown : Symbol → Bool) (e : Expr α) : Bool :=
  !e.dependsOn unknown || match e with
    | num _ | sym _ => true
    | sum ts | product ts => jumpFreeList unknown ts
    | power b _ => jumpFree unknown b
    | call f args => f.bends && jumpFreeList unknown args
    | _ => false

/-- Nothing that jumps with an unknown is in a list. -/
def jumpFreeList (unknown : Symbol → Bool) : List (Expr α) → Bool
  | [] => true
  | e :: es => jumpFree unknown e && jumpFreeList unknown es

end

theorem jumpFreeList_iff {U : Symbol → Bool} {es : List (Expr α)} :
    jumpFreeList U es = true ↔ ∀ e ∈ es, jumpFree U e = true := by
  induction es with
  | nil => simp [jumpFreeList]
  | cons e es ih => simp [jumpFreeList, ih]

variable [ExactScalar α] {ℓ ℓ' : Symbol → Option α}

theorem value_unary {f : Builtin} (arity : f.arity = 1) {x : Expr α} (hx : Regular ℓ x) :
    value ℓ (call f [x]) = Scalar.unary f (value ℓ x) := by
  rw [value_call (by simpa using hx)]
  simp [Scalar.applyBuiltin, arity]

theorem value_binary {f : Builtin} (arity : f.arity = 2) {a b : Expr α} (h : ∀ x ∈ [a, b], Regular ℓ x) :
    value ℓ (call f [a, b]) = Scalar.binary f (value ℓ a) (value ℓ b) := by
  rw [value_call h]
  simp [Scalar.applyBuiltin, arity]

theorem sameSteps_call {f : Builtin} {args : List (Expr α)} :
    sameSteps ℓ ℓ' (call f args) = true ↔
      if f.bends then ∀ x ∈ args, sameSteps ℓ ℓ' x = true else value ℓ (call f args) = value ℓ' (call f args) := by
  rw [sameSteps]
  split
  · exact sameStepsList_iff
  · exact ExactScalar.eq_iff

/-- Where the steps are the same, one branch of a choice is taken under both valuations. -/
theorem sameSteps_select {c a b : Expr α} :
    sameSteps ℓ ℓ' (select c a b) = true ↔
      (Scalar.isZero (value ℓ c) = Scalar.isZero (value ℓ' c)) ∧
        sameSteps ℓ ℓ' (if Scalar.isZero (value ℓ' c) then b else a) = true := by
  rw [sameSteps]
  cases Scalar.isZero (value ℓ c) <;> cases Scalar.isZero (value ℓ' c) <;> simp

/-- What mentions no symbol whose value differs does not jump. -/
theorem sameSteps_of_dependsOn {p : Symbol → Bool} (agree : ∀ s, p s = false → ℓ s = ℓ' s) {e : Expr α}
    (h : e.dependsOn p = false) : sameSteps ℓ ℓ' e = true := by
  have same {e : Expr α} (h : e.dependsOn p = false) : Scalar.eq (value ℓ e) (value ℓ' e) = true :=
    ExactScalar.eq_iff.mpr (value_congr agree h)
  induction e with
  | num _ | sym _ => rw [sameSteps]
  | sum ts ih | product ts ih =>
    have h := dependsOnList_eq_false_iff.mp h
    rw [sameSteps]
    exact sameStepsList_iff.mpr fun t ht => ih t ht (h t ht)
  | power b e hb _ =>
    rw [sameSteps]
    exact hb (Bool.or_eq_false_iff.mp h).1
  | call f args ih =>
    have parts := dependsOnList_eq_false_iff.mp h
    refine sameSteps_call.mpr ?_
    split
    · exact fun x hx => ih x hx (parts x hx)
    · exact value_congr agree h
  | select c a b _ ha hb =>
    obtain ⟨hc, h⟩ := Bool.or_eq_false_iff.mp h
    obtain ⟨h₁, h₂⟩ := Bool.or_eq_false_iff.mp h
    refine sameSteps_select.mpr ⟨congrArg Scalar.isZero (value_congr agree hc), ?_⟩
    split
    · exact hb h₂
    · exact ha h₁
  | compare _ _ _ _ _ | apply _ _ _ | derivative _ _ _ | integral _ _ _ =>
    simpa only [sameSteps] using same h

/-- The expression has a value under both valuations, and nothing jumps between the two. -/
structure Connected (ℓ ℓ' : Symbol → Option α) (e : Expr α) : Prop where
  first : Regular ℓ e
  second : Regular ℓ' e
  same : sameSteps ℓ ℓ' e = true

namespace Connected

theorem sum {ts : List (Expr α)} (h : Connected ℓ ℓ' (sum ts)) {x : Expr α} (hx : x ∈ ts) : Connected ℓ ℓ' x where
  first := regular_sum.mp h.first x hx
  second := regular_sum.mp h.second x hx
  same := sameStepsList_iff.mp h.same x hx

theorem product {fs : List (Expr α)} (h : Connected ℓ ℓ' (product fs)) {x : Expr α} (hx : x ∈ fs) :
    Connected ℓ ℓ' x where
  first := regular_product.mp h.first x hx
  second := regular_product.mp h.second x hx
  same := sameStepsList_iff.mp h.same x hx

theorem power {b e : Expr α} (h : Connected ℓ ℓ' (power b e)) : Connected ℓ ℓ' b where
  first := by
    obtain ⟨-, -, hb, -⟩ := regular_power.mp h.first
    exact hb
  second := by
    obtain ⟨-, -, hb, -⟩ := regular_power.mp h.second
    exact hb
  same := by simpa only [sameSteps] using h.same

/-- What bends may do so between the valuations. -/
theorem bends {f : Builtin} {args : List (Expr α)} (h : Connected ℓ ℓ' (call f args)) (bends : f.bends = true)
    {x : Expr α} (hx : x ∈ args) : Connected ℓ ℓ' x where
  first := (regular_call.mp h.first).2.2 x hx
  second := (regular_call.mp h.second).2.2 x hx
  same := by
    have same := sameSteps_call.mp h.same
    rw [if_pos bends] at same
    exact same x hx

theorem call_eq {f : Builtin} {args : List (Expr α)} (h : Connected ℓ ℓ' (call f args)) (bends : f.bends = false) :
    value ℓ (call f args) = value ℓ' (call f args) := by
  have same := sameSteps_call.mp h.same
  rwa [bends, if_neg Bool.false_ne_true] at same

theorem compare_eq {c : Comparison} {a b : Expr α} (h : Connected ℓ ℓ' (compare c a b)) :
    value ℓ (compare c a b) = value ℓ' (compare c a b) := by
  have same := h.same
  rw [sameSteps] at same
  · exact ExactScalar.eq_iff.mp same
  all_goals exact fun _ => nofun

theorem select_eq {c a b : Expr α} (h : Connected ℓ ℓ' (select c a b)) :
    Scalar.isZero (value ℓ c) = Scalar.isZero (value ℓ' c) := (sameSteps_select.mp h.same).1

/-- Under both valuations the same branch is taken. -/
theorem select {c a b : Expr α} (h : Connected ℓ ℓ' (select c a b)) :
    Connected ℓ ℓ' (if Scalar.isZero (value ℓ' c) then b else a) where
  first := by
    have taken := (regular_select.mp h.first).2
    rw [h.select_eq] at taken
    rwa [apply_ite (Regular ℓ)]
  second := by
    rw [apply_ite (Regular ℓ')]
    exact (regular_select.mp h.second).2
  same := (sameSteps_select.mp h.same).2

end Connected

/-- What mentions no symbol whose value differs is connected wherever it is regular. -/
theorem Regular.connected {p : Symbol → Bool} (agree : ∀ s, p s = false → ℓ s = ℓ' s) {e : Expr α}
    (free : e.dependsOn p = false) (regular : Regular ℓ e) : Connected ℓ ℓ' e :=
  ⟨regular, (regular_congr agree free).mp regular, sameSteps_of_dependsOn agree free⟩

/-- What only bends is connected wherever it is regular. -/
theorem connected_of_jumpFree {U : Symbol → Bool} (agree : ∀ s, U s = false → ℓ s = ℓ' s) {e : Expr α}
    (h : jumpFree U e = true) (first : Regular ℓ e) (second : Regular ℓ' e) : Connected ℓ ℓ' e := by
  refine ⟨first, second, ?_⟩
  clear first second
  have parts {es : List (Expr α)} (ih : ∀ x ∈ es, jumpFree U x = true → sameSteps ℓ ℓ' x = true)
      (h : jumpFreeList U es = true) : ∀ x ∈ es, sameSteps ℓ ℓ' x = true :=
    fun x hx => ih x hx (jumpFreeList_iff.mp h x hx)
  induction e with
  | num _ | sym _ => rw [sameSteps]
  | sum ts ih | product ts ih =>
    rw [jumpFree, Bool.or_eq_true, Bool.not_eq_true'] at h
    rcases h with free | h
    · exact sameSteps_of_dependsOn agree free
    · rw [sameSteps]
      exact sameStepsList_iff.mpr (parts ih h)
  | power b e hb _ =>
    rw [jumpFree, Bool.or_eq_true, Bool.not_eq_true'] at h
    rcases h with free | h
    · exact sameSteps_of_dependsOn agree free
    · rw [sameSteps]
      exact hb h
  | call f args ih =>
    rw [jumpFree, Bool.or_eq_true, Bool.not_eq_true'] at h
    rcases h with free | h
    · exact sameSteps_of_dependsOn agree free
    · obtain ⟨bends, h⟩ := Bool.and_eq_true_iff.mp h
      rw [sameSteps_call, if_pos bends]
      exact parts ih h
  | compare _ _ _ _ _ | apply _ _ _ | select _ _ _ _ _ _ | derivative _ _ _ | integral _ _ _ =>
    simp only [jumpFree, Bool.or_false, Bool.not_eq_true'] at h
    exact sameSteps_of_dependsOn agree h

/-! ## Derivatives of functions, comparisons and choices -/

variable {u : Symbol} {again? : Option (Expr α → Expr α)}

/-- A function of one argument is differentiated by the chain rule. -/
theorem diffStep_chain {f : Builtin} {a outer : Expr α} (h : f.derivative? a = some outer)
    (occurs : (call f [a]).contains u = true) :
    diffStep u again? (call f [a]) = outer * diffStep u again? a := by
  rw [diffStep.eq_def, occurs]
  cases f with
  | min | max | log | pow => cases h
  | _ =>
    cases h
    rfl

theorem diffStep_jumps {f : Builtin} {args : List (Expr α)} (jumps : f.jumps = true) (arity : args.length = f.arity) :
    diffStep u again? (call f args) = zero := by
  rw [diffStep.eq_def]
  split
  · rfl
  cases f with
  | sign | floor | ceiling | round =>
    obtain ⟨x, rfl⟩ := List.length_eq_one_iff.mp arity
    exact mkProduct_zero_cons _
  | _ => cases jumps

theorem diffStep_compare (c : Comparison) (a b : Expr α) : diffStep u again? (compare c a b) = zero := by
  rw [diffStep.eq_def]
  split <;> rfl

theorem diffStep_abs {x : Expr α} (occurs : (call .abs [x]).contains u = true) :
    diffStep u again? (call .abs [x]) = mkCall .sign [x] * diffStep u again? x :=
  diffStep_chain rfl occurs

theorem diffStep_choice {f : Builtin} {c : Comparison} (h : f.Chooses c) {a b : Expr α}
    (occurs : (call f [a, b]).contains u = true) :
    diffStep u again? (call f [a, b]) = mkSelect (mkCompare c a b) (diffStep u again? a) (diffStep u again? b) := by
  rw [diffStep.eq_def, occurs]
  cases h <;> rfl

theorem diffStep_select {c a b : Expr α} (occurs : (select c a b).contains u = true) :
    diffStep u again? (select c a b) = mkSelect c (diffStep u again? a) (diffStep u again? b) := by
  rw [diffStep.eq_def, occurs]
  rfl

end Expr

end AnalogCircuit
