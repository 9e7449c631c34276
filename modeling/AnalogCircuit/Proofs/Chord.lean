import AnalogCircuit.Proofs.Affine
import AnalogCircuit.Proofs.Steps
/-!
# Chords

While the unknowns move on the line from one valuation to another, an expression is replaced by one that is rational in
the position on the line and has the same values at both ends: what bends is replaced by its chord, what jumps by the
step on which both ends are. Read in this way, sums, products and powers are what they are, so that the canonical
constructors keep the values; and the sign of an expression is the slope of the chord of its magnitude.
-/

namespace AnalogCircuit.Expr

variable {α : Type} [ExactScalar α]

/-! ## Slopes of chords -/

/-- The quotient of two changes; where the second is zero, it is taken to be the given number. -/
def ratio (c p q : α) : α := if Scalar.isZero q then c else p / q

theorem ratio_mul {c p q : α} (h : q = 0 → p = 0) : ratio c p q * q = p := by
  unfold ratio
  split
  · next hq =>
    rw [Scalar.isZero_iff] at hq
    rw [hq, mul_zero, h hq]
  · next hq => exact div_mul_cancel₀ p (by simpa using hq)

theorem ratio_eq {c p q : α} (h : p = c * q) : ratio c p q = c := by
  unfold ratio
  split
  · rfl
  · next hq => rw [h, mul_div_cancel_right₀ c (by simpa using hq)]

section

variable (v w : Symbol → α)

/-- By how much the value changes from the first valuation to the second. -/
def change (e : Expr α) : α := value (total w) e - value (total v) e

/-- The slope of the chord of the magnitude. -/
def signSlope (x : Expr α) : α :=
  ratio (Scalar.unary .sign (value (total w) x)) (change v w (call .abs [x])) (change v w x)

/-- The part that the first of two expressions has in the change of the one that is chosen. -/
def share (c : Comparison) (a b : Expr α) : α :=
  ratio (Scalar.ofBool (c.holds (value (total w) a) (value (total w) b)))
    (c.choose (value (total w) a) (value (total w) b) - c.choose (value (total v) a) (value (total v) b) -
      change v w b)
    (change v w a - change v w b)

/-- The part that the first branch has in a choice. -/
def weight : Expr α → α
  | compare c a b => share v w c a b
  | c => if Scalar.isZero (value (total w) c) then 0 else 1

/-- How fast a function that bends changes with each of its arguments, along the chord. -/
def slopes : Builtin → List (Expr α) → List α
  | .abs, [x] => [signSlope v w x]
  | .min, [a, b] => [share v w .lt a b, 1 - share v w .lt a b]
  | .max, [a, b] => [share v w .gt a b, 1 - share v w .gt a b]
  | _, _ => []

/-- The sum of numbers that belong to expressions, with coefficients. -/
def combine (cs : List α) (g : Expr α → α) (es : List (Expr α)) : α := ((cs.zip es).map fun p => p.1 * g p.2).sum

/-- What of the chord of a function does not change. -/
def offset : Builtin → List (Expr α) → α
  | .sign, [x] => signSlope v w x
  | f, args => value (total w) (call f args) - combine (slopes v w f args) (value (total w)) args

/-! ## Chords of expressions -/

mutual

/-- An expression rational in one symbol, the position on the line between two valuations. -/
def chord : Expr α → Expr α
  | num c => num c
  | sym s => sum [num (v s), product [num (w s - v s), sym Symbol.time]]
  | sum ts => sum (chordList ts)
  | product fs => product (chordList fs)
  | power b e => power (chord b) e
  | call f args => sum (num (offset v w f args) :: chordWeighted (slopes v w f args) args)
  | select c a b =>
    if Scalar.isOne (weight v w c) then chord a
    else if Scalar.isZero (weight v w c) then chord b
    else sum [product [num (weight v w c), chord a], product [num (1 - weight v w c), chord b]]
  | e => num (value (total w) e)

/-- The chords of several expressions. -/
def chordList : List (Expr α) → List (Expr α)
  | [] => []
  | e :: es => chord e :: chordList es

/-- The chords of several expressions, each with a coefficient. -/
def chordWeighted : List α → List (Expr α) → List (Expr α)
  | c :: cs, e :: es => product [num c, chord e] :: chordWeighted cs es
  | _, _ => []

end

theorem chordList_eq_map (es : List (Expr α)) : chordList v w es = es.map (chord v w) := by
  induction es with
  | nil => rfl
  | cons e es ih => rw [chordList, ih, List.map_cons]

theorem chordWeighted_eq_map (cs : List α) (es : List (Expr α)) :
    chordWeighted v w cs es = (cs.zip es).map fun p => product [num p.1, chord v w p.2] := by
  induction es generalizing cs with
  | nil => cases cs <;> simp [chordWeighted]
  | cons e es ih => cases cs <;> simp [chordWeighted, ih]

/-- The position on the line. -/
def place (t : α) : Symbol → Option α := total (Function.update (fun _ => 0) Symbol.time t)

/-- An expression is read as its chord. -/
def frame (t : α) : Interpretation α where
  Regular e := Regular (place t) (chord v w e)
  value e := value (place t) (chord v w e)
  regular_num c := by rw [chord]; exact regular_num c
  regular_sum {ts} := by rw [chord, chordList_eq_map, regular_sum, List.forall_mem_map]
  regular_product {fs} := by rw [chord, chordList_eq_map, regular_product, List.forall_mem_map]
  regular_power {b e} := by rw [chord, regular_power]
  value_num c := by rw [chord]; rfl
  value_sum {ts} h := by
    rw [chord, chordList_eq_map, value_sum (List.forall_mem_map.mpr h), List.map_map]
    rfl
  value_product {fs} h := by
    rw [chord, chordList_eq_map, value_product (List.forall_mem_map.mpr h), List.map_map]
    rfl
  value_power h hn := by rw [chord]; exact value_power h hn

end

variable {v w : Symbol → α} {t : α}

theorem slopes_eq_nil {f : Builtin} (bends : f.bends = false) (args : List (Expr α)) : slopes v w f args = [] := by
  cases f with
  | abs | min | max => cases bends
  | _ => rfl

theorem slopes_choice {f : Builtin} {c : Comparison} (h : f.Chooses c) (a b : Expr α) :
    slopes v w f [a, b] = [share v w c a b, 1 - share v w c a b] := by cases h <;> rfl

theorem combine_congr {cs : List α} {g g' : Expr α → α} {es : List (Expr α)} (h : ∀ x ∈ es, g x = g' x) :
    combine cs g es = combine cs g' es :=
  congrArg List.sum (List.map_congr_left fun p hp => by rw [h p.2 (List.of_mem_zip hp).2])

theorem combine_sub (cs : List α) (g g' : Expr α → α) (es : List (Expr α)) :
    combine cs g es - combine cs g' es = combine cs (fun x => g x - g' x) es := by
  unfold combine
  generalize cs.zip es = l
  induction l with
  | nil => simp
  | cons p l ih =>
    simp only [List.map_cons, List.sum_cons, ← ih]
    ring

/-! ## What is read as chords -/

theorem frame_regular_iff {e : Expr α} : (frame v w t).Regular e ↔ Regular (place t) (chord v w e) := Iff.rfl

theorem frame_denotes_iff {e : Expr α} {x : α} :
    (frame v w t).Denotes e x ↔ Denotes (place t) (chord v w e) x := Iff.rfl

theorem frame_sym (s : Symbol) : (frame v w t).Denotes (sym s) (v s + (w s - v s) * t) := by
  have position : Denotes (place t) (sym Symbol.time) t := by
    refine ⟨?_, value_of_evaluate ?_⟩
    · rw [Regular]; rfl
    · rw [evaluate, place, total, Function.update_self]
  have factors : ∀ f ∈ [num (w s - v s), sym Symbol.time], Regular (place t) f := by simp [position.1]
  have terms : ∀ e ∈ [num (v s), product [num (w s - v s), sym Symbol.time]], Regular (place t) e := by
    simp [regular_product.mpr factors]
  rw [frame_denotes_iff, chord]
  refine ⟨regular_sum.mpr terms, ?_⟩
  rw [value_sum terms]
  simp [value_product factors, position.2]

/-- A function is read as the offset and a part of each argument in which it bends. -/
theorem frame_call {f : Builtin} {args : List (Expr α)}
    (h : ∀ p ∈ (slopes v w f args).zip args, (frame v w t).Regular p.2) :
    (frame v w t).Denotes (call f args)
      (offset v w f args + combine (slopes v w f args) (frame v w t).value args) := by
  have factors {p : α × Expr α} (hp : p ∈ (slopes v w f args).zip args) :
      ∀ e ∈ [num p.1, chord v w p.2], Regular (place t) e := by
    simpa using frame_regular_iff.mp (h p hp)
  have terms : ∀ e ∈ num (offset v w f args) ::
      ((slopes v w f args).zip args).map (fun p => product [num p.1, chord v w p.2]), Regular (place t) e :=
    List.forall_mem_cons.mpr ⟨regular_num _, List.forall_mem_map.mpr fun p hp => regular_product.mpr (factors hp)⟩
  rw [frame_denotes_iff, chord, chordWeighted_eq_map]
  refine ⟨regular_sum.mpr terms, ?_⟩
  rw [value_sum terms, List.map_cons, List.sum_cons, List.map_map, value_num]
  refine congrArg (_ + ·) (congrArg List.sum (List.map_congr_left fun p hp => ?_))
  rw [Function.comp_apply, value_product (factors hp), List.map_cons, List.map_singleton, List.prod_cons,
    List.prod_singleton, value_num]
  rfl

/-- A function that does not bend is read as a constant. -/
theorem frame_straight {f : Builtin} (bends : f.bends = false) (args : List (Expr α)) :
    (frame v w t).Denotes (call f args) (offset v w f args) := by
  have none : slopes v w f args = [] := slopes_eq_nil bends args
  have parts : ∀ p ∈ (slopes v w f args).zip args, (frame v w t).Regular p.2 := by
    rw [none]
    exact fun p hp => absurd hp List.not_mem_nil
  obtain ⟨regular, value⟩ := frame_call parts
  refine ⟨regular, value.trans ?_⟩
  rw [none]
  exact add_zero _

/-- A function that bends is regular only where all its arguments are. -/
theorem regular_of_frame_call {f : Builtin} {args : List (Expr α)} (bends : f.bends = true)
    (arity : args.length = f.arity) (h : (frame v w t).Regular (call f args)) {x : Expr α} (hx : x ∈ args) :
    (frame v w t).Regular x := by
  have complete : ((slopes v w f args).zip args).map Prod.snd = args := by
    rcases bends_cases bends arity with ⟨x, rfl, rfl⟩ | ⟨a, b, c, chooses, rfl⟩
    · rfl
    · rw [slopes_choice chooses]
      rfl
  rw [← complete] at hx
  obtain ⟨p, hp, rfl⟩ := List.mem_map.mp hx
  rw [frame_regular_iff, chord, chordWeighted_eq_map, regular_sum, List.forall_mem_cons, List.forall_mem_map] at h
  exact regular_product.mp (h.2 p hp) _ (by simp)

/-! ## Choices -/

theorem chord_select_one {c a b : Expr α} (h : weight v w c = 1) : chord v w (select c a b) = chord v w a := by
  rw [chord, if_pos (Scalar.isOne_iff.mpr h)]

theorem chord_select_zero {c a b : Expr α} (h : weight v w c = 0) : chord v w (select c a b) = chord v w b := by
  rw [chord, if_neg (by rw [Scalar.isOne_iff, h]; exact zero_ne_one), if_pos (Scalar.isZero_iff.mpr h)]

/-- The branches that have a part in the choice are regular. -/
def BranchesRegular (v w : Symbol → α) (t : α) (c a b : Expr α) : Prop :=
  (weight v w c ≠ 0 → (frame v w t).Regular a) ∧ (weight v w c ≠ 1 → (frame v w t).Regular b)

/-- The mean of the branches with the weight of the condition. -/
def mean (v w : Symbol → α) (t : α) (c a b : Expr α) : α :=
  weight v w c * (frame v w t).value a + (1 - weight v w c) * (frame v w t).value b

theorem BranchesRegular.of_one {c a b : Expr α} (h : BranchesRegular v w t c a b) (one : weight v w c = 1) :
    (frame v w t).Denotes a (mean v w t c a b) := by
  refine ⟨h.1 (by rw [one]; exact one_ne_zero), ?_⟩
  unfold mean
  rw [one]
  ring

theorem BranchesRegular.of_zero {c a b : Expr α} (h : BranchesRegular v w t c a b) (zero : weight v w c = 0) :
    (frame v w t).Denotes b (mean v w t c a b) := by
  refine ⟨h.2 (by rw [zero]; exact zero_ne_one), ?_⟩
  unfold mean
  rw [zero]
  ring

theorem frame_select {c a b : Expr α} (h : BranchesRegular v w t c a b) :
    (frame v w t).Denotes (select c a b) (mean v w t c a b) := by
  by_cases one : weight v w c = 1
  · rw [frame_denotes_iff, chord_select_one one]
    exact h.of_one one
  by_cases zero : weight v w c = 0
  · rw [frame_denotes_iff, chord_select_zero zero]
    exact h.of_zero zero
  -- both branches have a part, as they do in the derivative of a minimum or maximum that changes sides
  have first : ∀ e ∈ [num (weight v w c), chord v w a], Regular (place t) e := by
    simpa using frame_regular_iff.mp (h.1 zero)
  have second : ∀ e ∈ [num (1 - weight v w c), chord v w b], Regular (place t) e := by
    simpa using frame_regular_iff.mp (h.2 one)
  have terms : ∀ e ∈ [product [num (weight v w c), chord v w a], product [num (1 - weight v w c), chord v w b]],
      Regular (place t) e := by
    simp [regular_product.mpr first, regular_product.mpr second]
  rw [frame_denotes_iff, chord, if_neg (by rwa [Scalar.isOne_iff]), if_neg (by rwa [Scalar.isZero_iff])]
  refine ⟨regular_sum.mpr terms, ?_⟩
  rw [value_sum terms]
  simp [value_product first, value_product second, mean, frame]

/-- The canonical choice is read like the choice. -/
theorem frame_mkSelect {c a b : Expr α} (h : BranchesRegular v w t c a b) :
    (frame v w t).Denotes (mkSelect c a b) (mean v w t c a b) := by
  unfold mkSelect
  split
  · split
    · next hz => exact h.of_zero (if_pos hz)
    · next hz => exact h.of_one (if_neg hz)
  · split
    · next same =>
      -- equal branches are one, whatever part each has
      obtain rfl := eq_of_beq same
      have regular : (frame v w t).Regular a := by
        by_cases zero : weight v w c = 0
        · exact h.2 (by rw [zero]; exact zero_ne_one)
        · exact h.1 zero
      refine ⟨regular, ?_⟩
      unfold mean
      ring
    · exact frame_select h

theorem weight_mkCompare (c : Comparison) (a b : Expr α) : weight v w (mkCompare c a b) = share v w c a b := by
  unfold mkCompare
  split
  · next x y =>
    have same : share v w c (num x) (num y) = Scalar.ofBool (c.holds x y) := ratio_eq (by simp [change])
    rw [same, mkNum_eq]
    show (if Scalar.isZero (Scalar.ofBool (c.holds x y)) then (0 : α) else 1) = _
    cases c.holds x y
    · exact if_pos (Scalar.isZero_iff.mpr rfl)
    · exact if_neg (by rw [Scalar.isZero_iff]; exact one_ne_zero)
  · rfl

/-- The sign is read as the slope of the magnitude. -/
theorem frame_mkCall_sign (x : Expr α) : (frame v w t).Denotes (mkCall .sign [x]) (signSlope v w x) := by
  have node : (frame v w t).Denotes (call .sign [x]) (signSlope v w x) := frame_straight rfl [x]
  cases x with
  | num c =>
    have same : signSlope v w (num c) = Scalar.unary .sign c :=
      ratio_eq (by simp [change, value, evaluate, evaluateList])
    rw [same]
    show (frame v w t).Denotes (mkNum (Scalar.unary .sign c)) _
    rw [mkNum_eq]
    exact Interpretation.denotes_num _
  | _ => exact node

/-! ## The ends of a chord -/

section Ordered

variable [LawfulBuiltins α]

/-- What a choice changes by is shared between the two that it is made of. -/
theorem share_mul {f : Builtin} {c : Comparison} (h : f.Chooses c) (a b : Expr α) :
    share v w c a b * change v w a + (1 - share v w c a b) * change v w b =
      c.choose (value (total w) a) (value (total w) b) - c.choose (value (total v) a) (value (total v) b) := by
  have shared : share v w c a b * (change v w a - change v w b) = _ := ratio_mul fun same => ?_
  · linear_combination shared
  -- both sides move alike, so that the choice moves with them
  have move_a : value (total w) a = value (total v) a + change v w a := by unfold change; ring
  have move_b : value (total w) b = value (total v) b + change v w a := by
    rw [sub_eq_zero.mp same]; unfold change; ring
  rw [← sub_eq_zero.mp same, move_a, move_b, h.choose_add_right]
  ring

/-- A function that bends changes by its slopes times what the arguments change by. -/
theorem change_of_bends {f : Builtin} {args : List (Expr α)} (bends : f.bends = true)
    (h : Connected (total v) (total w) (call f args)) :
    change v w (call f args) = combine (slopes v w f args) (change v w) args := by
  obtain ⟨-, arity, first⟩ := regular_call.mp h.first
  obtain ⟨-, -, second⟩ := regular_call.mp h.second
  rcases bends_cases bends arity with ⟨x, rfl, rfl⟩ | ⟨a, b, c, chooses, rfl⟩
  · have slope : signSlope v w x * change v w x = change v w (call .abs [x]) := by
      refine ratio_mul fun same => ?_
      rw [change, value_unary rfl (first x List.mem_cons_self), value_unary rfl (second x List.mem_cons_self),
        sub_eq_zero.mp same, sub_self]
    simp [slopes, combine, slope]
  · rw [change, value_binary chooses.arity first, value_binary chooses.arity second, LawfulBuiltins.choose_eq chooses,
      LawfulBuiltins.choose_eq chooses, ← share_mul chooses, slopes_choice chooses]
    simp [combine]

/-- On one step the slope of the magnitude is the sign. -/
theorem signSlope_eq {x : Expr α} (h : Connected (total v) (total w) (call .sign [x])) :
    signSlope v w x = value (total w) (call .sign [x]) := by
  have first := (regular_call.mp h.first).2.2 x List.mem_cons_self
  have second := (regular_call.mp h.second).2.2 x List.mem_cons_self
  have same := h.call_eq rfl
  rw [value_unary rfl first, value_unary rfl second] at same
  rw [value_unary rfl second]
  refine ratio_eq ?_
  rw [change, value_unary rfl first, value_unary rfl second, LawfulBuiltins.abs_eq, LawfulBuiltins.abs_eq, same, change]
  ring

omit [LawfulBuiltins α] in
theorem offset_of_bends {f : Builtin} (bends : f.bends = true) (args : List (Expr α)) :
    offset v w f args =
      value (total w) (call f args) - combine (slopes v w f args) (value (total w)) args := by
  rw [offset]
  rintro x rfl
  cases bends

/-- On one step a function that does not bend is read as its value. -/
theorem offset_eq {f : Builtin} {args : List (Expr α)} (bends : f.bends = false)
    (h : Connected (total v) (total w) (call f args)) : offset v w f args = value (total w) (call f args) := by
  -- the sign is read as a slope, and on one step that is its value
  by_cases sign : f = .sign
  · subst sign
    obtain ⟨x, rfl⟩ := List.length_eq_one_iff.mp (regular_call.mp h.first).2.1
    exact signSlope_eq h
  · rw [offset, slopes_eq_nil bends]
    · exact sub_zero _
    · exact fun x h _ => sign h

omit [LawfulBuiltins α] in
/-- On one step the weight of a condition is its truth. -/
theorem weight_eq {c a b : Expr α} (h : Connected (total v) (total w) (select c a b)) :
    weight v w c = if Scalar.isZero (value (total w) c) then 0 else 1 := by
  have first := (regular_select.mp h.first).1
  have second := (regular_select.mp h.second).1
  have same := h.select_eq
  cases c with
  | compare c a b =>
    obtain ⟨ha, hb⟩ := regular_compare.mp first
    obtain ⟨ha', hb'⟩ := regular_compare.mp second
    rw [value_compare ha hb, value_compare ha' hb', Scalar.isZero_ofBool, Scalar.isZero_ofBool,
      Bool.not_inj_iff] at same
    have part : share v w c a b = Scalar.ofBool (c.holds (value (total w) a) (value (total w) b)) := by
      refine ratio_eq ?_
      unfold Comparison.choose
      rw [same]
      cases c.holds (value (total w) a) (value (total w) b) <;> simp [Scalar.ofBool, change]
    rw [weight, part, value_compare ha' hb', Scalar.isZero_ofBool]
    cases c.holds (value (total w) a) (value (total w) b) <;> rfl
  | _ => rfl

omit [LawfulBuiltins α] in
theorem chord_compare (c : Comparison) (a b : Expr α) :
    chord v w (compare c a b) = num (value (total w) (compare c a b)) := rfl

omit [LawfulBuiltins α] in
/-- A choice is read like the branch that is taken at both ends. -/
theorem chord_select {c a b : Expr α} (h : Connected (total v) (total w) (select c a b)) :
    chord v w (select c a b) = chord v w (if Scalar.isZero (value (total w) c) then b else a) := by
  have weight := weight_eq h
  split
  · next hz => exact chord_select_zero (weight.trans (if_pos hz))
  · next hz => exact chord_select_one (weight.trans (if_neg hz))

/-- At the ends of the line a function that bends is read as its value if its arguments are. -/
theorem Connected.frame_bends {f : Builtin} {args : List (Expr α)} (h : Connected (total v) (total w) (call f args))
    (bends : f.bends = true) {z : Symbol → α} (hz : z = v ∨ z = w)
    (parts : ∀ x ∈ args, (frame v w t).Denotes x (value (total z) x)) :
    (frame v w t).Denotes (call f args) (value (total z) (call f args)) := by
  obtain ⟨regular, value⟩ := frame_call fun p hp => (parts p.2 (List.of_mem_zip hp).2).1
  have move := change_of_bends bends h
  have differ : combine (slopes v w f args) (change v w) args = _ := (combine_sub _ _ _ _).symm
  -- the offset is made for the second end, and the first is on the chord by its slopes
  refine ⟨regular, value.trans ?_⟩
  rw [combine_congr fun x hx => (parts x hx).2, offset_of_bends bends]
  rcases hz with rfl | rfl
  · rw [differ, change] at move
    linear_combination move
  · ring

/-- At the ends of the line, an expression that is connected is read as its value; and it is read so anywhere on the
line if the line does not move the symbols in it. -/
theorem frame_denotes {z : Symbol → α} (hz : z = v ∨ z = w) {p : Symbol → Bool}
    (on : ∀ s, p s = false → z s = v s + (w s - v s) * t) {e : Expr α} (free : e.dependsOn p = false)
    (h : Connected (total v) (total w) e) : (frame v w t).Denotes e (value (total z) e) := by
  have regular {e : Expr α} (h : Connected (total v) (total w) e) : Regular (total z) e := by
    rcases hz with rfl | rfl
    · exact h.first
    · exact h.second
  have list {es : List (Expr α)} (ih : ∀ e ∈ es, (frame v w t).Denotes e (value (total z) e)) :
      (∀ e ∈ es, (frame v w t).Regular e) ∧ es.map (frame v w t).value = es.map (value (total z)) :=
    ⟨fun e he => (ih e he).1, List.map_congr_left fun e he => (ih e he).2⟩
  -- parts of a connected expression are connected, below a choice those of the branch that is taken at both ends
  induction e with
  | num c => exact Interpretation.denotes_num c
  | sym s =>
    have here : value (total z) (sym s) = z s := value_of_evaluate rfl
    rw [here, on s free]
    exact frame_sym s
  | sum ts ih =>
    have free := dependsOnList_eq_false_iff.mp free
    obtain ⟨parts, values⟩ := list fun x hx => ih x hx (free x hx) (h.sum hx)
    rw [value_sum fun x hx => regular (h.sum hx), ← values]
    exact Interpretation.denotes_sum parts
  | product fs ih =>
    have free := dependsOnList_eq_false_iff.mp free
    obtain ⟨parts, values⟩ := list fun x hx => ih x hx (free x hx) (h.product hx)
    rw [value_product fun x hx => regular (h.product hx), ← values]
    exact Interpretation.denotes_product parts
  | power b e hb _ =>
    obtain ⟨n, rfl, base, integral, nonzero⟩ := regular_power.mp (regular h)
    obtain ⟨part, value⟩ := hb (Bool.or_eq_false_iff.mp free).1 h.power
    rw [← value] at nonzero
    rw [value_power base integral, ← value]
    exact ⟨(frame v w t).regular_power.mpr ⟨n, rfl, part, integral, nonzero⟩,
      (frame v w t).value_power part integral⟩
  | call f args ih =>
    have free := dependsOnList_eq_false_iff.mp free
    cases bends : f.bends with
    | true => exact h.frame_bends bends hz fun x hx => ih x hx (free x hx) (h.bends bends hx)
    | false =>
      have same : value (total z) (call f args) = value (total w) (call f args) := by
        rcases hz with rfl | rfl
        · exact h.call_eq bends
        · rfl
      rw [same, ← offset_eq bends h]
      exact frame_straight bends args
  | compare c a b _ _ =>
    rw [frame_denotes_iff, chord_compare]
    rcases hz with rfl | rfl
    · rw [h.compare_eq]
      exact denotes_num _
    · exact denotes_num _
  | select c a b _ ha hb =>
    obtain ⟨-, free⟩ := Bool.or_eq_false_iff.mp free
    obtain ⟨free_a, free_b⟩ := Bool.or_eq_false_iff.mp free
    have same : Scalar.isZero (value (total z) c) = Scalar.isZero (value (total w) c) := by
      rcases hz with rfl | rfl
      · exact h.select_eq
      · rfl
    have taken := h.select
    rw [frame_denotes_iff, chord_select h, value_select (regular_select.mp (regular h)).1, same]
    split
    · next hz =>
      rw [if_pos hz] at taken
      exact hb free_b taken
    · next hz =>
      rw [if_neg hz] at taken
      exact ha free_a taken
  | apply _ _ _ | derivative _ _ _ | integral _ _ _ =>
    have regular := h.first
    rw [Regular] at regular
    exact regular.elim

theorem frame_first {e : Expr α} (h : Connected (total v) (total w) e) :
    (frame v w 0).Denotes e (value (total v) e) :=
  frame_denotes (p := fun _ => false) (.inl rfl) (fun s _ => by ring) (dependsOn_eq_false_iff.mpr fun _ _ => rfl) h

theorem frame_second {e : Expr α} (h : Connected (total v) (total w) e) :
    (frame v w 1).Denotes e (value (total w) e) :=
  frame_denotes (p := fun _ => false) (.inr rfl) (fun s _ => by ring) (dependsOn_eq_false_iff.mpr fun _ _ => rfl) h

end Ordered

/-! ## The line -/

/-- The chord is rational in the position. -/
theorem isRational_chord {e : Expr α} (h : Connected (total v) (total w) e) :
    isRational (· == Symbol.time) (chord v w e) = true := by
  have rational := hereditary_isRational (α := α) (· == Symbol.time)
  have scaled {c : α} {e : Expr α} (he : isRational (· == Symbol.time) e = true) :
      isRational (· == Symbol.time) (product [num c, e]) = true :=
    (rational.product _).mpr (List.forall_mem_cons.mpr ⟨rational.num c, List.forall_mem_singleton.mpr he⟩)
  induction e with
  | num c => rw [chord]; exact rational.num c
  | sym s =>
    rw [chord, rational.sum, List.forall_mem_cons, List.forall_mem_singleton]
    exact ⟨rational.num _, scaled (by simp only [isRational])⟩
  | sum ts ih =>
    rw [chord, chordList_eq_map, rational.sum, List.forall_mem_map]
    exact fun x hx => ih x hx (h.sum hx)
  | product fs ih =>
    rw [chord, chordList_eq_map, rational.product, List.forall_mem_map]
    exact fun x hx => ih x hx (h.product hx)
  | power b e hb _ =>
    obtain ⟨n, rfl, -, integral, -⟩ := regular_power.mp h.first
    rw [chord, rational.power]
    exact ⟨hb h.power, rational.num n, fun _ => ⟨n, rfl, integral⟩⟩
  | call f args ih =>
    rw [chord, chordWeighted_eq_map, rational.sum, List.forall_mem_cons, List.forall_mem_map]
    refine ⟨rational.num _, fun p hp => ?_⟩
    cases bends : f.bends with
    | true =>
      have hx := (List.of_mem_zip hp).2
      exact scaled (ih p.2 hx (h.bends bends hx))
    | false =>
      rw [slopes_eq_nil bends] at hp
      exact absurd hp List.not_mem_nil
  | compare c a b _ _ => rw [chord_compare]; exact rational.num _
  | select c a b _ ha hb =>
    have taken := h.select
    rw [chord_select h]
    split
    · next hz =>
      rw [if_pos hz] at taken
      exact hb taken
    · next hz =>
      rw [if_neg hz] at taken
      exact ha taken
  | apply _ _ _ | derivative _ _ _ | integral _ _ _ =>
    have regular := h.first
    rw [Regular] at regular
    exact regular.elim

/-- The positions at which no divisor of the chord is zero. -/
def line (v w : Symbol → α) (e : Expr α) : Set α := {t | (frame v w t).Regular e}

/-- These are infinitely many, for the ends are among them. -/
theorem infinite_line [LawfulBuiltins α] {e : Expr α} (h : Connected (total v) (total w) e) : (line v w e).Infinite :=
  infinite_regular (U := (· == Symbol.time)) (beq_self_eq_true _) (isRational_chord h) (frame_first h).1

end AnalogCircuit.Expr
