import AnalogCircuit.Expr.Parse
/-!
# What the grammar reads

One lemma for each way in which a part of the grammar is put together from others: what it reads and what it leaves,
if the others read what they should. The parts carry proofs that they leave less than there was; the lemmas are about
their outcomes, in which these proofs are forgotten.
-/

namespace AnalogCircuit.Expr.Grammar

variable {α β : Type} [Scalar α]

/-- What has been read and what is left, unless it failed. -/
def outcome {P : β × List Char → Prop} : Except Failure { r : β × List Char // P r } → Option (β × List Char)
  | .ok r => some r.val
  | .error _ => none

theorem exists_of_outcome {P : β × List Char → Prop} {x : Except Failure { r : β × List Char // P r }}
    {r : β × List Char} (h : outcome x = some r) : ∃ p, x = .ok ⟨r, p⟩ := by
  cases x with
  | error f => cases h
  | ok r' =>
    obtain rfl : r'.val = r := Option.some.inj h
    exact ⟨r'.property, rfl⟩

theorem outcome_bind_none {γ : Type} {P : β × List Char → Prop} {Q : γ × List Char → Prop}
    {x : Except Failure { r : β × List Char // P r }}
    {f : { r : β × List Char // P r } → Except Failure { r : γ × List Char // Q r }} (h : outcome x = none) :
    outcome (x >>= f) = none := by
  cases x with
  | error f => rfl
  | ok r => cases h

variable {cs rest rest' after : List Char} {e f : Expr α} {es : List (Expr α)} {c : Char}

/-! ## Comparisons -/

theorem expression_plain (read : outcome (additive (α := α) cs) = some (e, rest))
    (stop : comparison? (skipBlank rest) = none) : outcome (expression cs) = some (e, rest) := by
  obtain ⟨_, read⟩ := exists_of_outcome read
  rw [expression, read]
  simp only [bind, Except.bind]
  split
  · rfl
  · next o after hc => rw [hc] at stop; cases stop

theorem expression_compare {o : Comparison} (left : outcome (additive (α := α) cs) = some (e, rest))
    (operator : comparison? (skipBlank rest) = some (o, after))
    (right : outcome (additive after) = some (f, rest')) :
    outcome (expression cs) = some (mkCompare o e f, rest') := by
  obtain ⟨_, left⟩ := exists_of_outcome left
  obtain ⟨_, right⟩ := exists_of_outcome right
  rw [expression, left]
  simp only [bind, Except.bind]
  split
  · next hc => rw [hc] at operator; cases operator
  · next o' after' hc =>
    rw [operator, Option.some.injEq, Prod.mk.injEq] at hc
    obtain ⟨rfl, rfl⟩ := hc
    rw [right]
    rfl

/-! ## Sums -/

theorem additive_reads (first : outcome (term (α := α) cs) = some (e, rest))
    (others : outcome (additiveRest rest) = some (es, rest')) :
    outcome (additive cs) = some (mkSum (e :: es), rest') := by
  obtain ⟨_, first⟩ := exists_of_outcome first
  obtain ⟨_, others⟩ := exists_of_outcome others
  rw [additive, first]
  simp [bind, Except.bind, others]
  rfl

theorem additiveRest_plus (h : skipBlank cs = '+' :: after)
    (first : outcome (term (α := α) after) = some (e, rest))
    (others : outcome (additiveRest rest) = some (es, rest')) :
    outcome (additiveRest cs) = some (e :: es, rest') := by
  obtain ⟨_, first⟩ := exists_of_outcome first
  obtain ⟨_, others⟩ := exists_of_outcome others
  rw [additiveRest]
  split
  · next after' hs =>
    obtain rfl : after = after' := (List.cons.inj (h.symm.trans hs)).2
    simp [bind, Except.bind, first, others]
    rfl
  · next hs => cases h.symm.trans hs
  · next no _ => exact absurd h (no after)

theorem additiveRest_minus (h : skipBlank cs = '-' :: after)
    (first : outcome (term (α := α) after) = some (e, rest))
    (others : outcome (additiveRest rest) = some (es, rest')) :
    outcome (additiveRest cs) = some (-e :: es, rest') := by
  obtain ⟨_, first⟩ := exists_of_outcome first
  obtain ⟨_, others⟩ := exists_of_outcome others
  rw [additiveRest]
  split
  · next hs => cases h.symm.trans hs
  · next after' hs =>
    obtain rfl : after = after' := (List.cons.inj (h.symm.trans hs)).2
    simp [bind, Except.bind, first, others]
    rfl
  · next no => exact absurd h (no after)

theorem additiveRest_end (plus : (skipBlank cs).head? ≠ some '+') (minus : (skipBlank cs).head? ≠ some '-') :
    outcome (additiveRest (α := α) cs) = some ([], cs) := by
  rw [additiveRest]
  split
  · next hs => exact absurd (congrArg List.head? hs) plus
  · next hs => exact absurd (congrArg List.head? hs) minus
  · rfl

/-! ## Products -/

theorem term_reads (first : outcome (unary (α := α) cs) = some (e, rest))
    (others : outcome (termRest e rest) = some (f, rest')) : outcome (term cs) = some (f, rest') := by
  obtain ⟨_, first⟩ := exists_of_outcome first
  obtain ⟨_, others⟩ := exists_of_outcome others
  rw [term, first]
  simp [bind, Except.bind, others]
  rfl

theorem termRest_times {acc : Expr α} (h : skipBlank cs = '*' :: after)
    (first : outcome (unary after) = some (e, rest)) (others : outcome (termRest (acc * e) rest) = some (f, rest')) :
    outcome (termRest acc cs) = some (f, rest') := by
  obtain ⟨_, first⟩ := exists_of_outcome first
  obtain ⟨_, others⟩ := exists_of_outcome others
  rw [termRest]
  split
  · next after' hs =>
    obtain rfl : after = after' := (List.cons.inj (h.symm.trans hs)).2
    simp [bind, Except.bind, first, others]
    rfl
  · next hs => cases h.symm.trans hs
  · next no _ => exact absurd h (no after)

theorem termRest_divide {acc : Expr α} (h : skipBlank cs = '/' :: after)
    (first : outcome (unary after) = some (e, rest)) (others : outcome (termRest (acc / e) rest) = some (f, rest')) :
    outcome (termRest acc cs) = some (f, rest') := by
  obtain ⟨_, first⟩ := exists_of_outcome first
  obtain ⟨_, others⟩ := exists_of_outcome others
  rw [termRest]
  split
  · next hs => cases h.symm.trans hs
  · next after' hs =>
    obtain rfl : after = after' := (List.cons.inj (h.symm.trans hs)).2
    simp [bind, Except.bind, first, others]
    rfl
  · next no => exact absurd h (no after)

theorem termRest_end (times : (skipBlank cs).head? ≠ some '*') (slash : (skipBlank cs).head? ≠ some '/') :
    outcome (termRest e cs) = some (e, cs) := by
  rw [termRest]
  split
  · next hs => exact absurd (congrArg List.head? hs) times
  · next hs => exact absurd (congrArg List.head? hs) slash
  · rfl

/-! ## Signs and powers -/

theorem unary_minus (h : skipBlank cs = '-' :: after) (read : outcome (unary (α := α) after) = some (e, rest)) :
    outcome (unary cs) = some (-e, rest) := by
  obtain ⟨_, read⟩ := exists_of_outcome read
  rw [unary]
  split
  · next after' hs =>
    obtain rfl : after = after' := (List.cons.inj (h.symm.trans hs)).2
    simp [bind, Except.bind, read]
    rfl
  · next hs => cases h.symm.trans hs
  · next no _ => exact absurd h (no after)

theorem unary_plus (h : skipBlank cs = '+' :: after) (read : outcome (unary (α := α) after) = some (e, rest)) :
    outcome (unary cs) = some (e, rest) := by
  obtain ⟨_, read⟩ := exists_of_outcome read
  rw [unary]
  split
  · next hs => cases h.symm.trans hs
  · next after' hs =>
    obtain rfl : after = after' := (List.cons.inj (h.symm.trans hs)).2
    simp [bind, Except.bind, read]
    rfl
  · next no => exact absurd h (no after)

theorem unary_power (minus : (skipBlank cs).head? ≠ some '-') (plus : (skipBlank cs).head? ≠ some '+') :
    outcome (unary (α := α) cs) = outcome (power cs) := by
  rw [unary]
  split
  · next hs => exact absurd (congrArg List.head? hs) minus
  · next hs => exact absurd (congrArg List.head? hs) plus
  · rfl

theorem power_raised (base : outcome (primary (α := α) cs) = some (e, rest)) (h : skipBlank rest = '^' :: after)
    (exponent : outcome (unary after) = some (f, rest')) : outcome (power cs) = some (mkPow e f, rest') := by
  obtain ⟨_, base⟩ := exists_of_outcome base
  obtain ⟨_, exponent⟩ := exists_of_outcome exponent
  rw [power, base]
  simp only [bind, Except.bind]
  split
  · next after' hs =>
    obtain rfl : after = after' := (List.cons.inj (h.symm.trans hs)).2
    rw [exponent]
    rfl
  · next no => exact absurd h (no after)

theorem power_plain (base : outcome (primary (α := α) cs) = some (e, rest))
    (stop : (skipBlank rest).head? ≠ some '^') : outcome (power cs) = some (e, rest) := by
  obtain ⟨_, base⟩ := exists_of_outcome base
  rw [power, base]
  simp only [bind, Except.bind]
  split
  · next hs => exact absurd (congrArg List.head? hs) stop
  · rfl

/-! ## Operands -/

theorem primary_parenthesized (h : skipBlank cs = '(' :: after)
    (inside : outcome (expression (α := α) after) = some (e, rest)) (close : skipBlank rest = ')' :: rest') :
    outcome (primary cs) = some (e, rest') := by
  obtain ⟨_, inside⟩ := exists_of_outcome inside
  rw [primary]
  split
  · next hs => cases h.symm.trans hs
  · next after' hs =>
    obtain rfl : after = after' := (List.cons.inj (h.symm.trans hs)).2
    simp only [bind, Except.bind, inside]
    split
    · next rest'' hr =>
      obtain rfl : rest' = rest'' := (List.cons.inj (close.symm.trans hr)).2
      rfl
    · next no => exact absurd close (no rest')
  · next no hs =>
    obtain ⟨rfl, rfl⟩ := List.cons.inj (h.symm.trans hs)
    exact (no rfl).elim

theorem primary_number {q : Numeral.Quantity} (h : skipBlank cs = c :: after) (start : startsNumber c = true)
    (read : spanQuantity (c :: after) = some (q, rest)) :
    outcome (primary (α := α) cs) = some (mkNum q.value, rest) := by
  rw [primary]
  split
  · next hs => cases h.symm.trans hs
  · next hs =>
    obtain ⟨rfl, rfl⟩ := List.cons.inj (h.symm.trans hs)
    cases start
  · next hs =>
    obtain ⟨rfl, rfl⟩ := List.cons.inj (h.symm.trans hs)
    simp only [start, ↓reduceDIte]
    split
    · next hq => cases read.symm.trans hq
    · next hq =>
      obtain ⟨rfl, rfl⟩ := Prod.mk.inj (Option.some.inj (read.symm.trans hq))
      rfl

theorem primary_name {w : Word} (h : skipBlank cs = c :: after) (letter : startsName c = true)
    (number : startsNumber c = false) (read : spanWord (c :: after) = some w)
    (stop : (skipBlank w.rest).head? ≠ some '(') : outcome (primary (α := α) cs) = some (ofWord w, w.rest) := by
  rw [primary]
  split
  · next hs => cases h.symm.trans hs
  · next hs =>
    obtain ⟨rfl, rfl⟩ := List.cons.inj (h.symm.trans hs)
    cases letter
  · next hs =>
    obtain ⟨rfl, rfl⟩ := List.cons.inj (h.symm.trans hs)
    simp only [letter, number, ↓reduceDIte, Bool.false_eq_true]
    split
    · next hq => cases read.symm.trans hq
    · next hq =>
      obtain rfl := Option.some.inj (read.symm.trans hq)
      split
      · next hr => exact absurd (congrArg List.head? hr) stop
      · rfl

theorem primary_call {w : Word} {inner : List Char} (h : skipBlank cs = c :: after) (letter : startsName c = true)
    (number : startsNumber c = false) (read : spanWord (c :: after) = some w) (paren : skipBlank w.rest = '(' :: inner)
    (inside : outcome (arguments (α := α) inner) = some (es, rest))
    (denotes : ofCall (String.ofList w.name) es = .ok e) : outcome (primary cs) = some (e, rest) := by
  obtain ⟨_, inside⟩ := exists_of_outcome inside
  rw [primary]
  split
  · next hs => cases h.symm.trans hs
  · next hs =>
    obtain ⟨rfl, rfl⟩ := List.cons.inj (h.symm.trans hs)
    cases letter
  · next hs =>
    obtain ⟨rfl, rfl⟩ := List.cons.inj (h.symm.trans hs)
    simp only [letter, number, ↓reduceDIte, Bool.false_eq_true]
    split
    · next hq => cases read.symm.trans hq
    · next hq =>
      obtain rfl := Option.some.inj (read.symm.trans hq)
      split
      · next inner' hr =>
        obtain rfl : inner = inner' := (List.cons.inj (paren.symm.trans hr)).2
        simp only [bind, Except.bind, inside]
        split
        · next hd =>
          obtain rfl := Except.ok.inj (denotes.symm.trans hd)
          rfl
        · next hd => cases denotes.symm.trans hd
      · next no => exact absurd paren (no inner)

/-! ## Arguments -/

theorem arguments_none (h : skipBlank cs = ')' :: rest) : outcome (arguments (α := α) cs) = some ([], rest) := by
  rw [arguments]
  split
  · next rest' hs =>
    obtain rfl : rest = rest' := (List.cons.inj (h.symm.trans hs)).2
    rfl
  · next no => exact absurd h (no rest)

theorem argumentsRest_comma (first : outcome (expression (α := α) cs) = some (e, rest))
    (h : skipBlank rest = ',' :: after) (others : outcome (argumentsRest after) = some (es, rest')) :
    outcome (argumentsRest cs) = some (e :: es, rest') := by
  obtain ⟨_, first⟩ := exists_of_outcome first
  obtain ⟨_, others⟩ := exists_of_outcome others
  rw [argumentsRest, first]
  simp only [bind, Except.bind]
  split
  · next after' hs =>
    obtain rfl : after = after' := (List.cons.inj (h.symm.trans hs)).2
    rw [others]
    rfl
  · next hs => cases h.symm.trans hs
  · next no _ => exact absurd h (no after)

theorem argumentsRest_last (last : outcome (expression (α := α) cs) = some (e, rest))
    (h : skipBlank rest = ')' :: rest') : outcome (argumentsRest cs) = some ([e], rest') := by
  obtain ⟨_, last⟩ := exists_of_outcome last
  rw [argumentsRest, last]
  simp only [bind, Except.bind]
  split
  · next hs => cases h.symm.trans hs
  · next rest'' hs =>
    obtain rfl : rest' = rest'' := (List.cons.inj (h.symm.trans hs)).2
    rfl
  · next no => exact absurd h (no rest')

/-! ## Where nothing can be read -/

theorem primary_fails (h : skipBlank cs = c :: after) (paren : c ≠ '(') (number : startsNumber c = false)
    (letter : startsName c = false) : outcome (primary (α := α) cs) = none := by
  rw [primary]
  split
  · rfl
  · next hs => exact absurd (List.cons.inj (h.symm.trans hs)).1 paren
  · next hs =>
    obtain ⟨rfl, rfl⟩ := List.cons.inj (h.symm.trans hs)
    simp [number, letter]
    rfl

/-- An operand does not start with a sign. -/
theorem unsigned_of_primary {r : Expr α × List Char} (h : outcome (primary cs) = some r) :
    (skipBlank cs).head? ≠ some '-' ∧ (skipBlank cs).head? ≠ some '+' := by
  constructor
  all_goals
    intro head
    obtain ⟨after, sign⟩ := List.head?_eq_some_iff.mp head
    cases h.symm.trans (primary_fails sign (by decide) (by decide) (by decide))

/-- Neither does a power. -/
theorem unsigned_of_power {r : Expr α × List Char} (h : outcome (power cs) = some r) :
    (skipBlank cs).head? ≠ some '-' ∧ (skipBlank cs).head? ≠ some '+' := by
  cases read : outcome (primary (α := α) cs) with
  | none =>
    rw [power, outcome_bind_none read] at h
    cases h
  | some r' => exact unsigned_of_primary read

/-- No argument starts with the parenthesis that closes the list. -/
theorem argumentsRest_fails (h : skipBlank cs = ')' :: after) : outcome (argumentsRest (α := α) cs) = none := by
  -- Every part starts with the next one, down to the operand.
  have primary : outcome (primary (α := α) cs) = none := primary_fails h (by decide) (by decide) (by decide)
  have power : outcome (power (α := α) cs) = none := by
    rw [Grammar.power]
    exact outcome_bind_none primary
  have unary : outcome (unary (α := α) cs) = none := (unary_power (by simp [h]) (by simp [h])).trans power
  have term : outcome (term (α := α) cs) = none := by
    rw [Grammar.term]
    exact outcome_bind_none unary
  have additive : outcome (additive (α := α) cs) = none := by
    rw [Grammar.additive]
    exact outcome_bind_none term
  have expression : outcome (expression (α := α) cs) = none := by
    rw [Grammar.expression]
    exact outcome_bind_none additive
  rw [argumentsRest]
  exact outcome_bind_none expression

theorem arguments_some {r : List (Expr α) × List Char} (h : outcome (argumentsRest cs) = some r) :
    outcome (arguments cs) = some r := by
  rw [arguments]
  split
  · next hs => cases h.symm.trans (argumentsRest_fails hs)
  · exact h

/-! ## Whole texts -/

theorem parse_of_outcome {text : String} (read : outcome (expression (α := α) text.toList) = some (e, rest))
    (finished : skipBlank rest = []) : parse text = .ok e := by
  obtain ⟨_, read⟩ := exists_of_outcome read
  unfold parse
  simp only [read, finished]

end AnalogCircuit.Expr.Grammar
