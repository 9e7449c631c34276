import AnalogCircuit.Proofs.Grammar
import AnalogCircuit.Proofs.Printable
/-!
# Reading what has been written

The text of a canonical expression is read as that expression. Every operand is written for a level, and the part of
the grammar that belongs to the level reads it, as long as what follows could not go on with it. An operand that binds
tighter than its place asks for is read by a deeper part, and what that part has read the parts above pass on; a looser
one stands in parentheses.
-/

namespace AnalogCircuit.Expr

open Grammar

/-! ## What ends an operand -/

/-- The characters that may follow an operand of a level. -/
def closes (n : Nat) (c : Char) : Bool :=
  c == ')' || c == ',' ||
  2 ≤ n && (c == '=' || c == '!' || c == '<' || c == '>') ||
  3 ≤ n && (c == '+' || c == '-') ||
  4 ≤ n && (c == '*' || c == '/') ||
  5 ≤ n && c == '^'

/-- Nothing follows that could go on with an operand of the level. -/
def Closed (n : Nat) (rest : List Char) : Prop := ∀ c, (skipBlank rest).head? = some c → closes n c = true

variable {n m : Nat} {cs rest text : List Char} {c : Char}

theorem closes_mono (le : n ≤ m) (h : closes n c = true) : closes m c = true := by
  simp only [closes, Bool.or_eq_true, Bool.and_eq_true, decide_eq_true_eq] at h ⊢
  grind

theorem Closed.mono (h : Closed n rest) (le : n ≤ m) : Closed m rest := fun c hc => closes_mono le (h c hc)

theorem Closed.head?_ne (h : Closed n rest) (other : closes n c = false) : (skipBlank rest).head? ≠ some c := by
  intro head
  rw [h c head] at other
  cases other

theorem closed_nil (n : Nat) : Closed n [] := by
  intro c hc
  cases hc

theorem closed_cons (blank : Text.isAsciiBlank c = false) (h : closes n c = true) : Closed n (c :: rest) := by
  intro d hd
  obtain rfl : c = d := by simpa [skipBlank, blank] using hd
  exact h

theorem closed_blank : Closed n (' ' :: rest) ↔ Closed n rest := Iff.rfl

/-- No number and no name goes on. -/
theorem Closed.apart (h : Closed n rest) : Apart rest := by
  intro c hc
  obtain ⟨rest', rfl⟩ := List.head?_eq_some_iff.mp hc
  by_cases blank : Text.isAsciiBlank c
  · simp only [Text.isAsciiBlank, Bool.or_eq_true, beq_iff_eq] at blank
    rcases blank with (((rfl | rfl) | rfl) | rfl) | rfl <;> decide
  · have closing := closes_mono (Nat.le_max_left n 5) (h c (by simp [skipBlank, blank]))
    simp only [closes, Bool.or_eq_true, Bool.and_eq_true, decide_eq_true_eq, beq_iff_eq] at closing
    rcases closing with
      ((((rfl | rfl) | ⟨-, ((rfl | rfl) | rfl) | rfl⟩) | ⟨-, rfl | rfl⟩) | ⟨-, rfl | rfl⟩) | ⟨-, rfl⟩ <;>
      decide

/-! ## Reading at a level -/

variable {α : Type} [Scalar α]

/-- The part of the grammar that reads the operands of a level. -/
def part : Nat → (cs : List Char) → Parsed (Expr α) cs
  | 0 | 1 => expression
  | 2 => additive
  | 3 => term
  | 4 => unary
  | _ => primary

/-- The text is read as the expression at the level, behind white space and in front of all that may follow. -/
def Reads (n : Nat) (cs : List Char) (e : Expr α) : Prop :=
  ∀ rest, Closed n rest → ∀ text, skipBlank text = skipBlank (cs ++ rest) → outcome (part n text) = some (e, rest)

variable {e : Expr α}

theorem comparison?_of_closed (h : Closed 1 rest) : comparison? (skipBlank rest) = none := by
  have closing := h.head?_ne (c := '=') (by decide)
  have := h.head?_ne (c := '!') (by decide)
  have := h.head?_ne (c := '<') (by decide)
  have := h.head?_ne (c := '>') (by decide)
  unfold comparison?
  split <;> simp_all

/-- What a deeper part of the grammar reads is passed on if nothing follows that goes on with it. -/
theorem Reads.loosen_succ (lone : mkSum [e] = e) (h : Reads (n + 1) cs e) : Reads n cs e := by
  intro rest closed text start
  have read := h rest (closed.mono (Nat.le_succ n)) text start
  -- Each part tries an operator of its own behind what it has read, and finds none.
  match n with
  | 0 => exact read
  | 1 => exact expression_plain read (comparison?_of_closed closed)
  | 2 =>
    have sum := additive_reads read
      (additiveRest_end (closed.head?_ne (c := '+') (by decide)) (closed.head?_ne (c := '-') (by decide)))
    rwa [lone] at sum
  | 3 =>
    exact term_reads read
      (termRest_end (closed.head?_ne (c := '*') (by decide)) (closed.head?_ne (c := '/') (by decide)))
  | 4 =>
    obtain ⟨minus, plus⟩ := unsigned_of_primary read
    exact (unary_power minus plus).trans (power_plain read (closed.head?_ne (c := '^') (by decide)))
  | n + 5 => exact read

theorem Reads.loosen (lone : mkSum [e] = e) (h : Reads n cs e) (le : m ≤ n) : Reads m cs e := by
  induction le with
  | refl => exact h
  | step _ ih => exact ih (h.loosen_succ lone)

/-- Anything can stand in parentheses as an operand. -/
theorem Reads.parenthesized (h : Reads 1 cs e) : Reads 5 (parenthesized cs) e := by
  intro rest _ text start
  have inside := h (')' :: rest) (closed_cons (by decide) (by decide)) (cs ++ ')' :: rest) rfl
  refine primary_parenthesized ?_ inside rfl
  rw [start]
  simp [Expr.parenthesized, skipBlank, Text.isAsciiBlank]

/-- What is read without parentheses at its own level is read at any level as it is written there. -/
theorem reads_write (lone : mkSum [e] = e) (bare : Reads e.level e.writeBare e) (le : n ≤ 5) :
    Reads n (e.write n) e := by
  rw [write]
  split
  · have comparison : 1 ≤ e.level := by cases e <;> simp [level]; split <;> decide
    exact (bare.loosen lone comparison).parenthesized.loosen lone le
  · next tight => exact bare.loosen lone (Nat.le_of_not_lt tight)

/-- At the deepest levels the same part reads. -/
theorem Reads.tighten (h : Reads 5 cs e) : Reads 6 cs e :=
  fun rest closed text start => h rest (fun c hc => by simpa [closes] using closed c hc) text start

/-! ## Numbers and symbols -/

theorem skipBlank_of_start {cs : List Char} (start : isNameChar c = true ∨ c = '.') :
    skipBlank (c :: cs) = c :: cs := by
  have ink : Text.isAsciiBlank c = false := by
    cases blank : Text.isAsciiBlank c with
    | false => rfl
    | true =>
      simp only [Text.isAsciiBlank, Bool.or_eq_true, beq_iff_eq] at blank
      rcases blank with (((rfl | rfl) | rfl) | rfl) | rfl <;> revert start <;> decide
  simp [skipBlank, ink]

theorem isNameChar_of_startsNumber (digit : startsNumber c = true) : isNameChar c = true ∨ c = '.' := by
  simp only [startsNumber, Bool.or_eq_true, beq_iff_eq] at digit
  exact digit.imp_left isNameChar_of_isDigit

theorem reads_number {v : α} (plain : Scalar.IsPlain v) (back : ReadsBack v) : Reads 5 (Scalar.text v) (num v) := by
  intro rest closed text start
  obtain ⟨q, found, rfl⟩ := back
  obtain ⟨c, cs, whole, digit⟩ := startsNumber_of_spanQuantity found
  have longer := spanQuantity_append closed.apart found
  rw [whole, List.cons_append, skipBlank_of_start (isNameChar_of_startsNumber digit)] at start
  rw [whole, List.cons_append] at longer
  rw [← mkNum_of_plain plain]
  exact primary_number start digit longer

/-- The letters stand behind the digits. -/
theorem le_toNat_of_isAlpha (letter : c.isAlpha = true) : 'A'.val.toNat ≤ c.val.toNat := by
  have either : (decide ('A'.val ≤ c.val ∧ c.val ≤ 'Z'.val) ||
      decide ('a'.val ≤ c.val) && decide (c.val ≤ 'z'.val)) = true := letter
  simp only [Bool.or_eq_true, Bool.and_eq_true, decide_eq_true_eq, UInt32.le_iff_toNat_le] at either
  have : 'A'.val.toNat ≤ 'a'.val.toNat := by decide
  omega

theorem startsNumber_of_startsName (h : startsName c = true) : startsNumber c = false := by
  cases number : startsNumber c with
  | false => rfl
  | true =>
    simp only [startsNumber, Numeral.isDigit, Bool.or_eq_true, Bool.and_eq_true, decide_eq_true_eq, beq_iff_eq,
      Char.le_def, UInt32.le_iff_toNat_le] at number
    rw [startsName, Bool.or_eq_true, beq_iff_eq] at h
    have apart : '9'.val.toNat < 'A'.val.toNat := by decide
    rcases number with number | rfl
    · rcases h with letter | rfl
      · have := le_toNat_of_isAlpha letter
        omega
      · revert number; decide
    · revert h; decide

theorem reads_symbol {s : Symbol} (legible : s.IsLegible) : Reads 5 s.text.toList (sym s : Expr α) := by
  intro rest closed text start
  obtain ⟨⟨c, cs, whole, letter⟩, w, found, rfl, denotes⟩ := spanWord_symbol (α := α) legible closed.apart
  rw [whole, List.cons_append, skipBlank_of_start (.inl (isNameChar_of_startsName letter))] at start
  rw [whole, List.cons_append] at found
  rw [← denotes]
  exact primary_name start letter (startsNumber_of_startsName letter) found (closed.head?_ne (by simp [closes]))

/-! ## Calls -/

variable {args es : List (Expr α)}

theorem argumentsRest_reads (nonempty : args ≠ []) (parts : ∀ a ∈ args, Reads 0 (a.write 0) a)
    (start : skipBlank text = skipBlank (writeArguments args ++ ')' :: rest)) :
    outcome (argumentsRest text) = some (args, rest) := by
  induction args generalizing text with
  | nil => exact absurd rfl nonempty
  | cons a args ih =>
    have first := parts a List.mem_cons_self
    by_cases lone : args = []
    · subst lone
      rw [writeArguments] at start
      exact argumentsRest_last (first _ (closed_cons rfl rfl) text start) rfl
    · have others : writeArguments (a :: args) = a.write 0 ++ (", ".toList ++ writeArguments args) := by
        rw [writeArguments, List.append_assoc]
        exact lone
      rw [others, List.append_assoc, List.append_assoc] at start
      refine argumentsRest_comma (first _ (closed_cons rfl rfl) text start) rfl ?_
      exact ih lone (fun b hb => parts b (List.mem_cons_of_mem _ hb)) rfl

/-- A name with arguments is read as what it denotes. -/
theorem reads_call {name : List Char} (identifier : IsIdentifier name)
    (parts : ∀ a ∈ args, Reads 0 (a.write 0) a) (denotes : ofCall (String.ofList name) args = .ok e) :
    Reads 5 (name ++ Expr.parenthesized (writeArguments args)) e := by
  intro rest _ text start
  have paren : Apart ('(' :: (writeArguments args ++ ')' :: rest)) := by
    rintro _ ⟨⟩
    decide
  have found := spanWord_name identifier paren
  have whole : name ++ Expr.parenthesized (writeArguments args) ++ rest =
      name ++ '(' :: (writeArguments args ++ ')' :: rest) := by simp [Expr.parenthesized]
  have inside : outcome (arguments (writeArguments args ++ ')' :: rest)) = some (args, rest) := by
    by_cases none : args = []
    · subst none
      exact arguments_none (by rw [writeArguments]; rfl)
    · exact arguments_some (argumentsRest_reads none parts rfl)
  rw [whole] at start
  cases name with
  | nil => cases identifier
  | cons c cs =>
    rw [List.cons_append, skipBlank_of_start (.inl (isNameChar_of_startsName identifier.1))] at start
    exact primary_call start identifier.1 (startsNumber_of_startsName identifier.1) found rfl inside denotes

/-- Only `if` and `D` are no functions. -/
theorem ofCall_eq {name : String} (notIf : name ≠ "if") (notD : name ≠ "D") :
    ofCall name args =
      match Builtin.find? name with
      | some f => if f.arity = args.length then .ok (mkCall f args) else .error (.wrongArity f)
      | none => .ok (apply name args) := by
  unfold ofCall
  rw [if_neg notIf]
  split
  · exact absurd rfl notD
  · exact absurd rfl notD
  · rfl

theorem reads_builtin {f : Builtin} (parts : ∀ a ∈ args, Reads 0 (a.write 0) a) (arity : f.arity = args.length)
    (kept : mkCall f args = call f args) : Reads 5 (call f args).writeBare (call f args) := by
  have identifier : IsIdentifier f.name.toList := by cases f <;> decide
  have notIf : f.name ≠ "if" := by cases f <;> decide
  have notD : f.name ≠ "D" := by cases f <;> decide
  rw [writeBare_call]
  refine reads_call identifier parts ?_
  rw [String.ofList_toList, ofCall_eq notIf notD, Builtin.find?_name]
  simp [arity, kept]

theorem reads_apply {name : String} (legible : LegibleNode (apply name args))
    (parts : ∀ a ∈ args, Reads 0 (a.write 0) a) : Reads 5 (apply name args).writeBare (apply name args) := by
  obtain ⟨identifier, notIf, notD, unknown⟩ := legible
  rw [writeBare]
  refine reads_call identifier parts ?_
  rw [String.ofList_toList, ofCall_eq notIf notD, unknown]

theorem reads_select {x a b : Expr α} (parts : ∀ y ∈ [x, a, b], Reads 0 (y.write 0) y)
    (kept : mkSelect x a b = select x a b) : Reads 5 (select x a b).writeBare (select x a b) := by
  rw [writeBare]
  refine reads_call (by decide) parts ?_
  simp [ofCall, kept]

theorem reads_derivative {x : Expr α} {t : Symbol} (parts : ∀ y ∈ [x, sym t], Reads 0 (y.write 0) y)
    (kept : mkDerivative x t = derivative x t) :
    Reads 5 (derivative x t).writeBare (derivative x t) := by
  have whole : (derivative x t).writeBare = ['D'] ++ Expr.parenthesized (writeArguments [x, sym t]) := by
    simp [writeBare, writeArguments, write, level]
  rw [whole]
  refine reads_call (by decide) parts ?_
  simp [ofCall, kept]

/-! ## Operators -/

theorem reads_compare {o : Comparison} {a b : Expr α} (left : Reads 2 (a.write 2) a) (right : Reads 2 (b.write 2) b)
    (kept : mkCompare o a b = compare o a b) : Reads 1 (compare o a b).writeBare (compare o a b) := by
  intro rest closed text start
  have whole : (compare o a b).writeBare ++ rest =
      a.write 2 ++ (' ' :: o.sign.toList ++ (' ' :: b.write 2 ++ rest)) := by
    simp [writeBare]
  rw [whole] at start
  have follows : Closed 2 (' ' :: o.sign.toList ++ (' ' :: b.write 2 ++ rest)) := by
    cases o <;> exact closed_blank.mpr (closed_cons rfl rfl)
  have operator : comparison? (skipBlank (' ' :: o.sign.toList ++ (' ' :: b.write 2 ++ rest))) =
      some (o, ' ' :: b.write 2 ++ rest) := by
    cases o <;> rfl
  rw [← kept]
  exact expression_compare (left _ follows text start) operator (right rest (closed.mono (by decide)) _ rfl)

theorem reads_power {b x : Expr α} (base : Reads 5 (b.write 5) b) (exponent : Reads 4 (x.write 5) x)
    (kept : mkPow b x = power b x) : Reads 4 (power b x).writeBare (power b x) := by
  intro rest closed text start
  have whole : (power b x).writeBare ++ rest = b.write 5 ++ ('^' :: (x.write 5 ++ rest)) := by
    simp [writeBare]
  rw [whole] at start
  have first := base _ (closed_cons rfl rfl) text start
  -- A base is an operand, so the text does not start with a sign.
  obtain ⟨minus, plus⟩ := unsigned_of_primary first
  rw [← kept]
  exact (unary_power minus plus).trans (power_raised first rfl (exponent rest closed _ rfl))

/-! ## Sums -/

variable {t : Expr α} {ts : List (Expr α)}

theorem closed_writeTerms (ts : List (Expr α)) (closed : Closed 2 rest) : Closed 3 (writeTerms ts ++ rest) := by
  cases ts with
  | nil =>
    rw [writeTerms]
    exact closed.mono (by decide)
  | cons t ts =>
    rw [writeTerms]
    split <;> exact closed_blank.mpr (closed_cons rfl rfl)

/-- A term that is no sum is written as a factor is. -/
theorem write_term (flat : ∀ us, t ≠ sum us) : t.write 2 = t.write 3 := by
  have same : t.level < 2 ↔ t.level < 3 := by
    cases t with
    | sum us => exact absurd rfl (flat us)
    | num v => simp only [level]; split <;> decide
    | _ => simp [level]
  rw [write, write]
  simp only [same]

variable [Signed α] [Std.TransCmp (Scalar.order (α := α))] [Std.LawfulEqCmp (Scalar.order (α := α))]

theorem additiveRest_reads (closed : Closed 2 rest) (printable : ∀ t ∈ ts, IsPrintable t)
    (flat : ∀ t ∈ ts, ∀ us, t ≠ sum us)
    (parts : ∀ t ∈ ts, ∀ x : Expr α, IsPrintable x → x.size ≤ t.size → Reads 3 (x.write 3) x) :
    outcome (additiveRest (writeTerms ts ++ rest)) = some (ts, rest) := by
  induction ts with
  | nil =>
    rw [writeTerms]
    exact additiveRest_end (closed.head?_ne (by decide)) (closed.head?_ne (by decide))
  | cons t ts ih =>
    obtain ⟨printable_t, printable⟩ := List.forall_mem_cons.mp printable
    obtain ⟨flat_t, flat⟩ := List.forall_mem_cons.mp flat
    obtain ⟨parts_t, parts⟩ := List.forall_mem_cons.mp parts
    have others := ih printable flat parts
    have follows := closed_writeTerms ts closed
    rw [writeTerms]
    split
    · next s negative =>
      obtain ⟨printable_s, negation⟩ := printable_t.subtrahend negative
      have first := parts_t s printable_s (size_of_subtrahend? negative)
      have start : skipBlank (' ' :: (s.write 3 ++ writeTerms ts ++ rest)) =
          skipBlank (s.write 3 ++ (writeTerms ts ++ rest)) := by
        rw [List.append_assoc]
        rfl
      have minus : outcome (additiveRest (" - ".toList ++ s.write 3 ++ writeTerms ts ++ rest)) =
          some (-s :: ts, rest) :=
        additiveRest_minus rfl (first _ follows _ start) others
      rwa [negation] at minus
    · have first := parts_t t printable_t (Nat.le_refl _)
      have start : skipBlank (' ' :: (t.write 3 ++ writeTerms ts ++ rest)) =
          skipBlank (t.write 3 ++ (writeTerms ts ++ rest)) := by
        rw [List.append_assoc]
        rfl
      have plus : outcome (additiveRest (" + ".toList ++ t.write 3 ++ writeTerms ts ++ rest)) = some (t :: ts, rest) :=
        additiveRest_plus rfl (first _ follows _ start) others
      rwa [write_term flat_t]

theorem reads_sum (printable : IsPrintable (sum ts))
    (parts : ∀ t ∈ ts, ∀ x : Expr α, IsPrintable x → x.size ≤ t.size → Reads 3 (x.write 3) x) :
    Reads 2 (sum ts).writeBare (sum ts) := by
  intro rest closed text start
  have flat : ∀ t ∈ ts, ∀ us, t ≠ sum us := printable.node.merged
  have rebuilt : mkSum ts = sum ts := by simpa [mapChildren] using (isCanonical_iff.mp printable.isCanonical).1
  have terms : ∀ t ∈ ts, IsPrintable t := fun t ht => printable.child ht
  rcases ts with _ | ⟨t, ts⟩
  · cases printable.node.tidy.1
  · obtain ⟨printable_t, printable⟩ := List.forall_mem_cons.mp terms
    obtain ⟨flat_t, flat⟩ := List.forall_mem_cons.mp flat
    obtain ⟨parts_t, parts⟩ := List.forall_mem_cons.mp parts
    have first := parts_t t printable_t (Nat.le_refl _)
    rw [writeBare, write_term flat_t, List.append_assoc] at start
    rw [← rebuilt]
    exact additive_reads (first _ (closed_writeTerms ts closed) text start)
      (additiveRest_reads closed printable flat parts)

/-! ## Products -/

variable {f g : Expr α} {fs gs ps : List (Expr α)}

omit [Signed α] [Std.TransCmp (Scalar.order (α := α))] [Std.LawfulEqCmp (Scalar.order (α := α))] in
theorem closed_writeFactors (gs : List (Expr α)) (closed : Closed 3 rest) :
    Closed 4 (writeFactors false gs ++ rest) := by
  cases gs with
  | nil =>
    rw [writeFactors]
    exact closed.mono (by decide)
  | cons g gs =>
    rw [writeFactors]
    exact closed_cons rfl rfl

/-- The factors that have been read are multiplied by those that follow. -/
theorem termRest_reads (closed : Closed 3 rest) (printable : IsPrintable (product (ps ++ gs))) (nonempty : ps ≠ [])
    (parts : ∀ g ∈ gs, Reads 4 (g.write 4) g) :
    outcome (termRest (ofFactors ps) (writeFactors false gs ++ rest)) = some (ofFactors (ps ++ gs), rest) := by
  -- Any first factors of a canonical product are multiplied as they are, so the accumulator is always their product.
  induction gs generalizing ps with
  | nil =>
    rw [writeFactors, List.append_nil]
    exact termRest_end (closed.head?_ne (by decide)) (closed.head?_ne (by decide))
  | cons g gs ih =>
    obtain ⟨part, parts⟩ := List.forall_mem_cons.mp parts
    rw [List.append_cons] at printable ⊢
    have several : 2 ≤ (ps ++ [g]).length := by
      have := List.length_pos_of_ne_nil nonempty
      simp
      omega
    have multiplied : ofFactors ps * g = ofFactors (ps ++ [g]) := by
      rw [ofFactors_mul, mkProduct_take printable.isTidy printable.isMerged printable.isPlain several]
    have others := ih printable (by simp) parts
    rw [← multiplied] at others
    have first := part _ (closed_writeFactors gs closed) (g.write 4 ++ (writeFactors false gs ++ rest)) rfl
    refine termRest_times ?_ first others
    simp [writeFactors, skipBlank, Text.isAsciiBlank]

/-- The first factor is written as a sign if it is `-1`, and otherwise as the others are. -/
theorem reads_product (printable : IsPrintable (product fs)) (parts : ∀ f ∈ fs, Reads 4 (f.write 4) f) :
    Reads 3 (product fs).writeBare (product fs) := by
  intro rest closed text start
  have factors := (isTidy_product.mp printable.isTidy).1
  have several : 2 ≤ fs.length := by
    cases factors with
    | plain _ _ several => exact several
    | scaled _ _ some _ _ => exact Nat.succ_le_succ (List.length_pos_of_ne_nil some)
  rw [writeBare] at start
  rw [← ofFactors_of_several several]
  rcases fs with _ | ⟨f, gs⟩
  · cases several
  obtain ⟨lead, others⟩ := List.forall_mem_cons.mp parts
  by_cases sign : f.isMinusOne
  · cases f with
    | num v =>
      obtain rfl := Signed.eq_of_eq_minusOne sign
      rcases gs with _ | ⟨g, gs⟩
      · cases Nat.lt_irrefl 1 several
      obtain ⟨part, others⟩ := List.forall_mem_cons.mp others
      -- The sign is read first and makes a product of `-1` and the next factor alone.
      have signed : IsPrintable (product ([num (-1), g] ++ gs)) := printable
      have unsigned : g.isMinusOne = false := by
        cases factors with
        | plain _ factor _ => cases (factor (num (-1)) List.mem_cons_self).nonconstant
        | scaled _ factor _ _ _ =>
          have nonconstant := (factor g List.mem_cons_self).nonconstant
          cases g with
          | num v => cases nonconstant
          | _ => rfl
      have whole : writeFactors true (num (-1) :: g :: gs) = '-' :: (g.write 4 ++ writeFactors false gs) := by
        rw [writeFactors, writeFactors]
        simp [sign, unsigned]
      have negated : -g = ofFactors [num (-1), g] := by
        rw [neg_eq]
        exact mkProduct_take signed.isTidy signed.isMerged signed.isPlain (Nat.le_refl 2)
      rw [whole] at start
      have first := unary_minus (start.trans (by simp [skipBlank, Text.isAsciiBlank]))
        (part _ (closed_writeFactors gs closed) (g.write 4 ++ (writeFactors false gs ++ rest)) rfl)
      rw [negated] at first
      exact term_reads first (termRest_reads closed signed (by simp) others)
    | _ => cases sign
  · have whole : writeFactors true (f :: gs) = f.write 4 ++ writeFactors false gs := by
      rw [writeFactors]
      simp [sign]
    rw [whole, List.append_assoc] at start
    have unsigned : IsPrintable (product ([f] ++ gs)) := printable
    exact term_reads (lead _ (closed_writeFactors gs closed) text start)
      (termRest_reads closed unsigned (by simp) others)

/-! ## Whole expressions -/

/-- A negative number is read as the negation of its magnitude. -/
theorem reads_negative {v : α} (printable : IsPrintable (num v)) (negative : Scalar.lt v 0 = true) :
    Reads 4 (num v).writeBare (num v) := by
  intro rest closed text start
  have negated := Signed.isNegated printable.isPlain.num negative
  have back : ReadsBack (-v) := negated.abs ▸ printable.node.reads v rfl
  have magnitude : Reads 4 (Scalar.text (-v)) (num (-v)) :=
    (reads_number negated.isPlain_neg back).loosen_succ (printable.num_neg negative).mkSum_singleton
  rw [writeBare, negated.text] at start
  rw [← neg_num negated]
  exact unary_minus (start.trans (by simp [skipBlank, Text.isAsciiBlank])) (magnitude rest closed _ rfl)

/-- The part of the grammar that belongs to the level of an expression reads it. -/
theorem IsPrintable.reads_bare (h : IsPrintable e) : Reads e.level e.writeBare e := by
  -- The induction is on the size, since what a negative term subtracts is no part of the expression.
  induction size : e.size using Nat.strong_induction_on generalizing e with
  | _ s ih =>
    subst size
    have smaller {x : Expr α} (printable : IsPrintable x) (lt : x.size < e.size) {n : Nat} (le : n ≤ 5) :
        Reads n (x.write n) x :=
      reads_write printable.mkSum_singleton (ih x.size lt printable rfl) le
    have child {x : Expr α} (hx : x ∈ e.children) {n : Nat} (le : n ≤ 5) : Reads n (x.write n) x :=
      smaller (h.child hx) (size_lt_of_mem_children hx) le
    have rebuilt := (isCanonical_iff.mp h.isCanonical).1
    have lone := h.mkSum_singleton
    cases e with
    | num v =>
      rw [level]
      split
      · next negative => exact (reads_negative h negative).loosen_succ lone
      · next nonnegative =>
        have magnitude := Signed.abs_of_nonnegative h.isPlain.num (Bool.eq_false_iff.mpr nonnegative)
        rw [writeBare]
        exact (reads_number h.isPlain.num (magnitude ▸ h.node.reads v rfl)).tighten
    | sym s =>
      rw [writeBare]
      exact (reads_symbol h.node.legible).tighten
    | sum ts =>
      refine reads_sum h fun t ht x printable le => smaller printable ?_ (by decide)
      exact Nat.lt_of_le_of_lt le (size_lt_of_mem_children (e := sum ts) ht)
    | product fs => exact reads_product h fun f hf => child hf (by decide)
    | power b x =>
      have exponent := child (x := x) (by simp [children]) (Nat.le_refl 5)
      refine reads_power (child (by simp [children]) (Nat.le_refl 5)) ?_ rebuilt
      exact exponent.loosen_succ (h.child (by simp [children])).mkSum_singleton
    | call f args =>
      have kept : mkCall f args = call f args := by simpa [mapChildren] using rebuilt
      exact (reads_builtin (fun a ha => child ha (by decide)) h.node.legible kept).tighten
    | apply name args => exact (reads_apply h.node.legible fun a ha => child ha (by decide)).tighten
    | compare o a b =>
      exact reads_compare (child (by simp [children]) (by decide)) (child (by simp [children]) (by decide)) rebuilt
    | select x a b =>
      exact (reads_select (fun y hy => child hy (by decide)) rebuilt).tighten
    | derivative x t =>
      have less : (sym t : Expr α).size < (derivative x t).size := by
        have := x.size_pos
        simp only [size]
        omega
      refine (reads_derivative ?_ rebuilt).tighten
      exact List.forall_mem_cons.mpr ⟨child (by simp [children]) (by decide),
        List.forall_mem_singleton.mpr (smaller (isPrintable_sym h.node.legible) less (by decide))⟩
    | integral x t => exact h.node.legible.elim

/-- Parsing undoes printing. -/
theorem IsPrintable.parse_text (h : IsPrintable e) : parse e.text = .ok e := by
  have whole := reads_write h.mkSum_singleton h.reads_bare (Nat.zero_le 5) [] (closed_nil 0) e.text.toList
    (by simp [text])
  exact parse_of_outcome whole rfl

end AnalogCircuit.Expr
