import AnalogCircuit.Proofs.Lexemes
/-!
# Derivations

The grammar of expressions as relations between lexemes and values, without the order in which they are read. A text is
read as an expression if and only if its lexemes derive it. That what derives is read goes by the derivation, with what
closes an operand as the condition on what follows; that what is read derives goes by the length of the text.
-/

namespace AnalogCircuit.Expr

open Grammar

variable {α : Type} [Scalar α]

/-! ## The grammar -/

/-- What a name with arguments denotes. The condition takes three arguments, a derivative with two arguments is one with
respect to a symbol, and a built-in function takes as many as its arity says. -/
inductive IsCall : String → List (Expr α) → Expr α → Prop
  | select {c a b : Expr α} : IsCall "if" [c, a, b] (mkSelect c a b)
  | derivative {x : Expr α} {t : Symbol} : IsCall "D" [x, sym t] (mkDerivative x t)
  | builtin {name : String} {f : Builtin} {args : List (Expr α)} (found : Builtin.find? name = some f)
      (arity : f.arity = args.length) : IsCall name args (mkCall f args)
  | apply {name : String} {args : List (Expr α)} (unknown : Builtin.find? name = none) (notIf : name ≠ "if")
      (notD : name = "D" → args.length ≠ 2) : IsCall name args (apply name args)

mutual

/-- One sum, or a comparison of two. -/
inductive IsExpression : List Lexeme → Expr α → Prop
  | plain {ts : List Lexeme} {e : Expr α} (sum : IsAdditive ts e) : IsExpression ts e
  | compare {ts us : List Lexeme} {e f : Expr α} {o : Comparison} (left : IsAdditive ts e) (right : IsAdditive us f) :
      IsExpression (ts ++ .comparison o :: us) (mkCompare o e f)

/-- A term, and others behind it. -/
inductive IsAdditive : List Lexeme → Expr α → Prop
  | sum {ts us : List Lexeme} {e : Expr α} {es : List (Expr α)} (first : IsTerm ts e) (others : IsTerms us es) :
      IsAdditive (ts ++ us) (mkSum (e :: es))

/-- Terms with signs in front of them; those behind a minus sign are negated. -/
inductive IsTerms : List Lexeme → List (Expr α) → Prop
  | nil : IsTerms [] []
  | plus {ts us : List Lexeme} {e : Expr α} {es : List (Expr α)} (first : IsTerm ts e) (others : IsTerms us es) :
      IsTerms (.mark '+' :: (ts ++ us)) (e :: es)
  | minus {ts us : List Lexeme} {e : Expr α} {es : List (Expr α)} (first : IsTerm ts e) (others : IsTerms us es) :
      IsTerms (.mark '-' :: (ts ++ us)) (-e :: es)

/-- Products and quotients, from the left. -/
inductive IsTerm : List Lexeme → Expr α → Prop
  | unary {ts : List Lexeme} {e : Expr α} (one : IsUnary ts e) : IsTerm ts e
  | times {ts us : List Lexeme} {e f : Expr α} (left : IsTerm ts e) (right : IsUnary us f) :
      IsTerm (ts ++ .mark '*' :: us) (e * f)
  | divide {ts us : List Lexeme} {e f : Expr α} (left : IsTerm ts e) (right : IsUnary us f) :
      IsTerm (ts ++ .mark '/' :: us) (e / f)

/-- Signs in front of a power. -/
inductive IsUnary : List Lexeme → Expr α → Prop
  | minus {ts : List Lexeme} {e : Expr α} (operand : IsUnary ts e) : IsUnary (.mark '-' :: ts) (-e)
  | plus {ts : List Lexeme} {e : Expr α} (operand : IsUnary ts e) : IsUnary (.mark '+' :: ts) e
  | power {ts : List Lexeme} {e : Expr α} (one : IsPower ts e) : IsUnary ts e

/-- An operand, or one with an exponent, which may have signs and an exponent of its own. -/
inductive IsPower : List Lexeme → Expr α → Prop
  | plain {ts : List Lexeme} {e : Expr α} (base : IsPrimary ts e) : IsPower ts e
  | raised {ts us : List Lexeme} {e f : Expr α} (base : IsPrimary ts e) (exponent : IsUnary us f) :
      IsPower (ts ++ .mark '^' :: us) (mkPow e f)

/-- A number, a name, a call or anything in parentheses. -/
inductive IsPrimary : List Lexeme → Expr α → Prop
  | number {q : Numeral.Quantity} : IsPrimary [.number q] (mkNum q.value)
  | name {name : List Char} {previous : Bool} : IsPrimary [.word name previous] (ofWord ⟨name, previous, []⟩)
  | call {name : List Char} {previous : Bool} {ts : List Lexeme} {es : List (Expr α)} {e : Expr α}
      (arguments : IsArguments ts es) (call : IsCall (String.ofList name) es e) :
      IsPrimary (.word name previous :: .mark '(' :: (ts ++ [.mark ')'])) e
  | parenthesized {ts : List Lexeme} {e : Expr α} (inside : IsExpression ts e) :
      IsPrimary (.mark '(' :: (ts ++ [.mark ')'])) e

/-- No argument, or some. -/
inductive IsArguments : List Lexeme → List (Expr α) → Prop
  | none : IsArguments [] []
  | some {ts : List Lexeme} {es : List (Expr α)} (list : IsArgumentList ts es) : IsArguments ts es

/-- Expressions with commas between them. -/
inductive IsArgumentList : List Lexeme → List (Expr α) → Prop
  | last {ts : List Lexeme} {e : Expr α} (one : IsExpression ts e) : IsArgumentList ts [e]
  | comma {ts us : List Lexeme} {e : Expr α} {es : List (Expr α)} (first : IsExpression ts e)
      (others : IsArgumentList us es) : IsArgumentList (ts ++ .mark ',' :: us) (e :: es)

end

/-! ## Calls -/

theorem ofCall_eq_ok_iff {name : String} {args : List (Expr α)} {e : Expr α} :
    ofCall name args = .ok e ↔ IsCall name args e := by
  constructor
  · intro denotes
    unfold ofCall at denotes
    split at denotes
    · next named =>
      subst named
      split at denotes <;> cases denotes
      exact .select
    next notIf =>
    split at denotes
    · cases denotes
      exact .derivative
    · cases denotes
    next notD =>
    split at denotes
    · next found =>
      split at denotes <;> cases denotes
      next arity =>
      exact .builtin found arity
    · next unknown =>
      cases denotes
      refine .apply unknown notIf ?_
      rintro rfl two
      obtain ⟨x, t, rfl⟩ := List.length_eq_two.mp two
      exact notD x t rfl rfl
  · intro call
    cases call with
    | select => rfl
    | derivative => rfl
    | @builtin _ f _ found arity =>
      have none : Builtin.find? "if" = none ∧ Builtin.find? "D" = none := by decide +kernel
      have notIf : name ≠ "if" := by
        rintro rfl
        cases none.1.symm.trans found
      have notD : name ≠ "D" := by
        rintro rfl
        cases none.2.symm.trans found
      rw [ofCall_eq notIf notD, found]
      exact if_pos arity
    | apply unknown notIf notD =>
      unfold ofCall
      rw [if_neg notIf]
      split
      · exact absurd rfl (notD rfl)
      · exact absurd rfl (notD rfl)
      · rw [unknown]

/-! ## What derives is read -/

section

variable {cs rest after text : List Char} {l : Lexeme} {ls : List Lexeme} {c : Char} {n : Nat} {e f : Expr α}

omit [Scalar α] in
theorem Lexes.of_cons (h : Lexes cs (l :: ls) rest) : ∃ text mid, Next cs l text mid ∧ Lexes mid ls rest := by
  cases h with
  | cons first others => exact ⟨_, _, first, others⟩

theorem Lexes.of_singleton (h : Lexes cs [l] rest) : ∃ text, Next cs l text rest := by
  obtain ⟨text, mid, first, others⟩ := h.of_cons
  cases others
  exact ⟨text, first⟩

omit [Scalar α] in
/-- What closes operands of a level does so with white space in front of it. -/
theorem closed_of_start (start : skipBlank cs = c :: after) (closing : closes n c = true) : Closed n cs := by
  intro d hd
  rw [start] at hd
  cases hd
  exact closing

theorem Next.closed (h : Next cs (.mark c) text rest) (closing : closes n c = true) : Closed n cs :=
  closed_of_start h.mark closing

theorem Next.closed_of_comparison {o : Comparison} (h : Next cs (.comparison o) text rest) : Closed 2 cs := by
  intro d hd
  rw [eq_append_of_comparison? h.comparison] at hd
  cases o <;> cases hd <;> rfl

theorem termRest_closed (closed : Closed 3 rest) : outcome (termRest e rest) = some (e, rest) :=
  termRest_end (closed.head?_ne (by decide)) (closed.head?_ne (by decide))

theorem apart_of_paren (h : skipBlank cs = '(' :: after) : Apart cs := by
  intro c hc
  obtain ⟨cs', rfl⟩ := List.head?_eq_some_iff.mp hc
  by_cases blank : Text.isAsciiBlank c
  · simp only [Text.isAsciiBlank, Bool.or_eq_true, beq_iff_eq] at blank
    rcases blank with (((rfl | rfl) | rfl) | rfl) | rfl <;> decide
  · have here : skipBlank (c :: cs') = c :: cs' := by simp [skipBlank, blank]
    obtain ⟨rfl, -⟩ := List.cons.inj (here.symm.trans h)
    decide

end

mutual

theorem IsExpression.read {ts : List Lexeme} {e : Expr α} {cs rest : List Char} :
    IsExpression ts e → Lexes cs ts rest → Closed 1 rest → outcome (expression cs) = some (e, rest)
  | .plain one, lexes, closed =>
    expression_plain (one.read lexes (closed.mono (by decide))) (comparison?_of_closed closed)
  | .compare left right, lexes, closed => by
    obtain ⟨mid, before, behind⟩ := lexes.of_append
    obtain ⟨text, after, operator, behind⟩ := behind.of_cons
    exact expression_compare (left.read before operator.closed_of_comparison) operator.comparison
      (right.read behind (closed.mono (by decide)))

theorem IsAdditive.read {ts : List Lexeme} {e : Expr α} {cs rest : List Char} :
    IsAdditive ts e → Lexes cs ts rest → Closed 2 rest → outcome (additive cs) = some (e, rest)
  | .sum first others, lexes, closed => by
    obtain ⟨mid, before, behind⟩ := lexes.of_append
    obtain ⟨others, closed⟩ := others.read behind closed
    exact additive_reads (first.read before (closed.mono (by decide)) (termRest_closed closed)) others

/-- What starts the other terms closes the one in front of them. -/
theorem IsTerms.read {ts : List Lexeme} {es : List (Expr α)} {cs rest : List Char} :
    IsTerms ts es → Lexes cs ts rest → Closed 2 rest → outcome (additiveRest cs) = some (es, rest) ∧ Closed 3 cs
  | .nil, lexes, closed => by
    cases lexes
    exact ⟨additiveRest_end (closed.head?_ne (by decide)) (closed.head?_ne (by decide)), closed.mono (by decide)⟩
  | .plus first others, lexes, closed => by
    obtain ⟨text, after, sign, behind⟩ := lexes.of_cons
    obtain ⟨mid, before, behind⟩ := behind.of_append
    obtain ⟨others, closed⟩ := others.read behind closed
    have first := first.read before (closed.mono (by decide)) (termRest_closed closed)
    exact ⟨additiveRest_plus sign.mark first others, sign.closed rfl⟩
  | .minus first others, lexes, closed => by
    obtain ⟨text, after, sign, behind⟩ := lexes.of_cons
    obtain ⟨mid, before, behind⟩ := behind.of_append
    obtain ⟨others, closed⟩ := others.read behind closed
    have first := first.read before (closed.mono (by decide)) (termRest_closed closed)
    exact ⟨additiveRest_minus sign.mark first others, sign.closed rfl⟩

/-- The factors that are read behind a term go on with its value. -/
theorem IsTerm.read {ts : List Lexeme} {e : Expr α} {cs mid : List Char} {r : Expr α × List Char} :
    IsTerm ts e → Lexes cs ts mid → Closed 4 mid → outcome (termRest e mid) = some r →
      outcome (term cs) = some r
  | .unary one, lexes, closed, others => term_reads (one.read lexes closed) others
  | .times left right, lexes, closed, others => by
    obtain ⟨mid, before, behind⟩ := lexes.of_append
    obtain ⟨text, after, operator, behind⟩ := behind.of_cons
    exact left.read before (operator.closed rfl) (termRest_times operator.mark (right.read behind closed) others)
  | .divide left right, lexes, closed, others => by
    obtain ⟨mid, before, behind⟩ := lexes.of_append
    obtain ⟨text, after, operator, behind⟩ := behind.of_cons
    exact left.read before (operator.closed rfl) (termRest_divide operator.mark (right.read behind closed) others)

theorem IsUnary.read {ts : List Lexeme} {e : Expr α} {cs rest : List Char} :
    IsUnary ts e → Lexes cs ts rest → Closed 4 rest → outcome (unary cs) = some (e, rest)
  | .minus operand, lexes, closed => by
    obtain ⟨text, after, sign, behind⟩ := lexes.of_cons
    exact unary_minus sign.mark (operand.read behind closed)
  | .plus operand, lexes, closed => by
    obtain ⟨text, after, sign, behind⟩ := lexes.of_cons
    exact unary_plus sign.mark (operand.read behind closed)
  | .power one, lexes, closed => by
    have read := one.read lexes closed
    -- a power starts with no sign, so the signs are not tried
    obtain ⟨minus, plus⟩ := unsigned_of_power read
    exact (unary_power minus plus).trans read

theorem IsPower.read {ts : List Lexeme} {e : Expr α} {cs rest : List Char} :
    IsPower ts e → Lexes cs ts rest → Closed 4 rest → outcome (Grammar.power cs) = some (e, rest)
  | .plain base, lexes, closed =>
    power_plain (base.read lexes (closed.mono (by decide))) (closed.head?_ne (by decide))
  | .raised base exponent, lexes, closed => by
    obtain ⟨mid, before, behind⟩ := lexes.of_append
    obtain ⟨text, after, operator, behind⟩ := behind.of_cons
    exact power_raised (base.read before (operator.closed rfl)) operator.mark (exponent.read behind closed)

theorem IsPrimary.read {ts : List Lexeme} {e : Expr α} {cs rest : List Char} :
    IsPrimary ts e → Lexes cs ts rest → Closed 5 rest → outcome (primary cs) = some (e, rest)
  | .number, lexes, closed => by
    obtain ⟨text, next⟩ := lexes.of_singleton
    obtain ⟨c, after, start, digit, found⟩ := next.number closed.apart
    exact primary_number start digit found
  | .name, lexes, closed => by
    obtain ⟨text, next⟩ := lexes.of_singleton
    obtain ⟨c, after, start, letter, found⟩ := next.word closed.apart
    exact primary_name start letter (startsNumber_of_startsName letter) found (closed.head?_ne (by decide))
  | .call list denotes, lexes, closed => by
    obtain ⟨text, mid, name, behind⟩ := lexes.of_cons
    obtain ⟨text', inner, opening, behind⟩ := behind.of_cons
    obtain ⟨mid', inside, behind⟩ := behind.of_append
    obtain ⟨text'', closing⟩ := behind.of_singleton
    obtain ⟨c, after, start, letter, found⟩ := name.word (apart_of_paren opening.mark)
    exact primary_call start letter (startsNumber_of_startsName letter) found opening.mark
      (list.read inside closing.mark) (ofCall_eq_ok_iff.mpr denotes)
  | .parenthesized inside, lexes, closed => by
    obtain ⟨text, after, opening, behind⟩ := lexes.of_cons
    obtain ⟨mid, before, behind⟩ := behind.of_append
    obtain ⟨text', closing⟩ := behind.of_singleton
    exact primary_parenthesized opening.mark (inside.read before (closing.closed rfl)) closing.mark

theorem IsArguments.read {ts : List Lexeme} {es : List (Expr α)} {cs mid rest : List Char} :
    IsArguments ts es → Lexes cs ts mid → skipBlank mid = ')' :: rest → outcome (arguments cs) = some (es, rest)
  | .none, lexes, closing => by
    cases lexes
    exact arguments_none closing
  | .some list, lexes, closing => arguments_some (list.read lexes closing)

theorem IsArgumentList.read {ts : List Lexeme} {es : List (Expr α)} {cs mid rest : List Char} :
    IsArgumentList ts es → Lexes cs ts mid → skipBlank mid = ')' :: rest → outcome (argumentsRest cs) = some (es, rest)
  | .last one, lexes, closing => argumentsRest_last (one.read lexes (closed_of_start closing rfl)) closing
  | .comma first others, lexes, closing => by
    obtain ⟨mid, before, behind⟩ := lexes.of_append
    obtain ⟨text, after, comma, behind⟩ := behind.of_cons
    exact argumentsRest_comma (first.read before (comma.closed rfl)) comma.mark (others.read behind closing)

end

/-! ## What is read derives -/

theorem outcome_bind_eq_some {β γ : Type} {P : β × List Char → Prop} {Q : γ × List Char → Prop}
    {x : Except Failure { r : β × List Char // P r }}
    {f : { r : β × List Char // P r } → Except Failure { r : γ × List Char // Q r }} {r : γ × List Char}
    (h : outcome (x >>= f) = some r) :
    ∃ b rest p, x = .ok ⟨(b, rest), p⟩ ∧ outcome x = some (b, rest) ∧ outcome (f ⟨(b, rest), p⟩) = some r := by
  cases x with
  | error e => cases h
  | ok r' => exact ⟨_, _, r'.property, rfl, rfl, h⟩

/-- What a part of the grammar reads at the start of a text derives from the lexemes that are taken from it. -/
def Derives {β : Type} (P : List Lexeme → β → Prop) (cs : List Char) {Q : β × List Char → Prop}
    (x : Except Failure { r : β × List Char // Q r }) : Prop :=
  ∀ b rest, outcome x = some (b, rest) → ∃ ts, Lexes cs ts rest ∧ P ts b

/-- The lexemes end with a closing parenthesis. -/
def Parenthesized {β : Type} (P : List Lexeme → β → Prop) (ts : List Lexeme) (b : β) : Prop :=
  ∃ us, ts = us ++ [.mark ')'] ∧ P us b

/-- What all parts of the grammar that start behind others read of a text derives. -/
structure Sound (α : Type) [Scalar α] (cs : List Char) : Prop where
  expression : Derives (IsExpression (α := α)) cs (expression cs)
  additive : Derives (IsAdditive (α := α)) cs (additive cs)
  additiveRest : Derives (IsTerms (α := α)) cs (additiveRest cs)
  term : Derives (IsTerm (α := α)) cs (term cs)
  /-- The factors go on with a term. -/
  termRest : ∀ acc : Expr α, Derives (fun us e => ∀ ts, IsTerm ts acc → IsTerm (ts ++ us) e) cs (termRest acc cs)
  unary : Derives (IsUnary (α := α)) cs (unary cs)
  arguments : Derives (Parenthesized (IsArguments (α := α))) cs (arguments cs)
  argumentsRest : Derives (Parenthesized (IsArgumentList (α := α))) cs (argumentsRest cs)

section

variable {cs rest after : List Char} {c : Char}

theorem lexes_mark (start : skipBlank cs = c :: rest) (mark : c ∈ marks) : Lexes cs [.mark c] rest :=
  .single (next_mark start mark)

variable (shorter : ∀ cs' : List Char, cs'.length < cs.length → Sound α cs')

include shorter

theorem derives_primary : Derives (IsPrimary (α := α)) cs (primary cs) := by
  intro e rest read
  rw [primary] at read
  split at read
  · cases read
  · next after start =>
    obtain ⟨inner, mid, lt, -, inside, read⟩ := outcome_bind_eq_some read
    dsimp only at read
    split at read
    · next rest' close =>
      cases read
      have lt' := length_lt_of_skipBlank start
      obtain ⟨ts, lexes, derived⟩ := (shorter after lt').expression _ _ inside
      refine ⟨_, .cons (next_mark start (by decide)) (lexes.append (lexes_mark close (by decide))), ?_⟩
      exact .parenthesized derived
    · cases read
  · next c after paren start =>
    split at read
    · next digit =>
      split at read
      · cases read
      · next q rest' found =>
        cases read
        obtain ⟨text, next⟩ := next_number start digit found
        exact ⟨_, .single next, .number⟩
    split at read
    · next letter =>
      split at read
      · cases read
      next w found =>
      obtain ⟨text, next⟩ := next_word start letter found
      dsimp only at read
      split at read
      · next inner opening =>
        obtain ⟨args, mid, lt, -, inside, read⟩ := outcome_bind_eq_some read
        dsimp only at read
        split at read
        · next denotes =>
          cases read
          have lt' : inner.length < cs.length := by
            have word := length_spanWord_lt letter found
            have blank := length_skipBlank_le cs
            have paren := length_lt_of_skipBlank opening
            rw [start] at blank
            omega
          obtain ⟨_, lexes, ts, rfl, derived⟩ := (shorter inner lt').arguments _ _ inside
          refine ⟨_, .cons next (.cons (next_mark opening (by decide)) lexes), ?_⟩
          exact .call derived (ofCall_eq_ok_iff.mp denotes)
        · cases read
      · cases read
        exact ⟨_, .single next, .name⟩
    · cases read

theorem derives_power : Derives (IsPower (α := α)) cs (Grammar.power cs) := by
  intro e rest read
  rw [Grammar.power] at read
  obtain ⟨base, mid, lt, -, first, read⟩ := outcome_bind_eq_some read
  obtain ⟨ts, lexes, derived⟩ := derives_primary shorter _ _ first
  dsimp only at read
  split at read
  · next after raised =>
    obtain ⟨exponent, mid', lt', -, second, read⟩ := outcome_bind_eq_some read
    cases read
    have lt'' := length_lt_of_skipBlank raised
    obtain ⟨us, lexes', derived'⟩ := (shorter after (Nat.lt_trans lt'' lt)).unary _ _ second
    exact ⟨_, lexes.append (.cons (next_mark raised (by decide)) lexes'), .raised derived derived'⟩
  · cases read
    exact ⟨ts, lexes, .plain derived⟩

/-- A sign in front of an operand. -/
theorem lexes_signed {e : Expr α} (sign : skipBlank cs = c :: after) (mark : c ∈ marks)
    (inside : outcome (unary after) = some (e, rest)) : ∃ ts, Lexes cs (.mark c :: ts) rest ∧ IsUnary ts e := by
  obtain ⟨ts, lexes, derived⟩ := (shorter after (length_lt_of_skipBlank sign)).unary _ _ inside
  exact ⟨ts, .cons (next_mark sign mark) lexes, derived⟩

theorem derives_unary : Derives (IsUnary (α := α)) cs (unary cs) := by
  intro e rest read
  rw [unary] at read
  split at read
  · next after sign =>
    obtain ⟨operand, mid, lt, -, inside, read⟩ := outcome_bind_eq_some read
    cases read
    obtain ⟨ts, lexes, derived⟩ := lexes_signed shorter sign (by decide) inside
    exact ⟨_, lexes, .minus derived⟩
  · next after sign =>
    obtain ⟨operand, mid, lt, -, inside, read⟩ := outcome_bind_eq_some read
    cases read
    obtain ⟨ts, lexes, derived⟩ := lexes_signed shorter sign (by decide) inside
    exact ⟨_, lexes, .plus derived⟩
  · obtain ⟨ts, lexes, derived⟩ := derives_power shorter _ _ read
    exact ⟨ts, lexes, .power derived⟩

/-- An operator, a factor and more factors behind it. -/
theorem lexes_factor {e f acc : Expr α} {mid : List Char} (operator : skipBlank cs = c :: after) (mark : c ∈ marks)
    (left : mid.length < after.length) (first : outcome (unary after) = some (f, mid))
    (others : outcome (termRest acc mid) = some (e, rest)) :
    ∃ us vs, Lexes cs (.mark c :: (us ++ vs)) rest ∧ IsUnary us f ∧ ∀ ts, IsTerm ts acc → IsTerm (ts ++ vs) e := by
  have lt := length_lt_of_skipBlank operator
  obtain ⟨us, lexes, derived⟩ := (shorter after lt).unary _ _ first
  obtain ⟨vs, lexes', derived'⟩ := (shorter mid (Nat.lt_trans left lt)).termRest _ _ _ others
  exact ⟨us, vs, .cons (next_mark operator mark) (lexes.append lexes'), derived, derived'⟩

theorem derives_termRest (acc : Expr α) :
    Derives (fun us e => ∀ ts, IsTerm ts acc → IsTerm (ts ++ us) e) cs (termRest acc cs) := by
  intro e rest read
  rw [termRest] at read
  split at read
  · next after operator =>
    obtain ⟨f, mid, lt, -, first, read⟩ := outcome_bind_eq_some read
    obtain ⟨e', rest', le, -, others, read⟩ := outcome_bind_eq_some read
    cases read
    obtain ⟨us, vs, lexes, derived, derived'⟩ := lexes_factor shorter operator (by decide) lt first others
    refine ⟨_, lexes, fun ts term => ?_⟩
    rw [← List.cons_append, ← List.append_assoc]
    exact derived' _ (.times term derived)
  · next after operator =>
    obtain ⟨f, mid, lt, -, first, read⟩ := outcome_bind_eq_some read
    obtain ⟨e', rest', le, -, others, read⟩ := outcome_bind_eq_some read
    cases read
    obtain ⟨us, vs, lexes, derived, derived'⟩ := lexes_factor shorter operator (by decide) lt first others
    refine ⟨_, lexes, fun ts term => ?_⟩
    rw [← List.cons_append, ← List.append_assoc]
    exact derived' _ (.divide term derived)
  · cases read
    exact ⟨[], .nil, fun ts term => (List.append_nil ts).symm ▸ term⟩

theorem derives_term : Derives (IsTerm (α := α)) cs (term cs) := by
  intro e rest read
  rw [term] at read
  obtain ⟨f, mid, lt, -, first, read⟩ := outcome_bind_eq_some read
  obtain ⟨e', rest', le, -, others, read⟩ := outcome_bind_eq_some read
  cases read
  obtain ⟨ts, lexes, derived⟩ := derives_unary shorter _ _ first
  obtain ⟨us, lexes', derived'⟩ := (shorter mid lt).termRest _ _ _ others
  exact ⟨_, lexes.append lexes', derived' _ (.unary derived)⟩

/-- A sign, a term and more terms behind it. -/
theorem lexes_term {e : Expr α} {es : List (Expr α)} {mid : List Char} (sign : skipBlank cs = c :: after)
    (mark : c ∈ marks) (left : mid.length < after.length) (first : outcome (term after) = some (e, mid))
    (others : outcome (additiveRest mid) = some (es, rest)) :
    ∃ ts us, Lexes cs (.mark c :: (ts ++ us)) rest ∧ IsTerm ts e ∧ IsTerms us es := by
  have lt := length_lt_of_skipBlank sign
  obtain ⟨ts, lexes, derived⟩ := (shorter after lt).term _ _ first
  obtain ⟨us, lexes', derived'⟩ := (shorter mid (Nat.lt_trans left lt)).additiveRest _ _ others
  exact ⟨ts, us, .cons (next_mark sign mark) (lexes.append lexes'), derived, derived'⟩

theorem derives_additiveRest : Derives (IsTerms (α := α)) cs (additiveRest cs) := by
  intro es rest read
  rw [additiveRest] at read
  split at read
  · next after sign =>
    obtain ⟨e, mid, lt, -, first, read⟩ := outcome_bind_eq_some read
    obtain ⟨es', rest', le, -, others, read⟩ := outcome_bind_eq_some read
    cases read
    obtain ⟨ts, us, lexes, derived, derived'⟩ := lexes_term shorter sign (by decide) lt first others
    exact ⟨_, lexes, .plus derived derived'⟩
  · next after sign =>
    obtain ⟨e, mid, lt, -, first, read⟩ := outcome_bind_eq_some read
    obtain ⟨es', rest', le, -, others, read⟩ := outcome_bind_eq_some read
    cases read
    obtain ⟨ts, us, lexes, derived, derived'⟩ := lexes_term shorter sign (by decide) lt first others
    exact ⟨_, lexes, .minus derived derived'⟩
  · cases read
    exact ⟨[], .nil, .nil⟩

theorem derives_additive : Derives (IsAdditive (α := α)) cs (additive cs) := by
  intro e rest read
  rw [additive] at read
  obtain ⟨f, mid, lt, -, first, read⟩ := outcome_bind_eq_some read
  obtain ⟨es, rest', le, -, others, read⟩ := outcome_bind_eq_some read
  cases read
  obtain ⟨ts, lexes, derived⟩ := derives_term shorter _ _ first
  obtain ⟨us, lexes', derived'⟩ := (shorter mid lt).additiveRest _ _ others
  exact ⟨_, lexes.append lexes', .sum derived derived'⟩

theorem derives_expression : Derives (IsExpression (α := α)) cs (expression cs) := by
  intro e rest read
  rw [expression] at read
  obtain ⟨left, mid, lt, -, first, read⟩ := outcome_bind_eq_some read
  obtain ⟨ts, lexes, derived⟩ := derives_additive shorter _ _ first
  dsimp only at read
  split at read
  · cases read
    exact ⟨ts, lexes, .plain derived⟩
  · next o after operator =>
    obtain ⟨right, rest', lt', -, second, read⟩ := outcome_bind_eq_some read
    cases read
    have lt'' := Nat.lt_of_lt_of_le (length_comparison?_lt operator) (length_skipBlank_le mid)
    obtain ⟨us, lexes', derived'⟩ := (shorter after (Nat.lt_trans lt'' lt)).additive _ _ second
    exact ⟨_, lexes.append (.cons (next_comparison operator) lexes'), .compare derived derived'⟩

theorem derives_argumentsRest : Derives (Parenthesized (IsArgumentList (α := α))) cs (argumentsRest cs) := by
  intro es rest read
  rw [argumentsRest] at read
  obtain ⟨e, mid, lt, -, first, read⟩ := outcome_bind_eq_some read
  obtain ⟨ts, lexes, derived⟩ := derives_expression shorter _ _ first
  dsimp only at read
  split at read
  · next after comma =>
    obtain ⟨es', rest', lt', -, others, read⟩ := outcome_bind_eq_some read
    cases read
    have lt'' := length_lt_of_skipBlank comma
    obtain ⟨_, lexes', us, rfl, derived'⟩ := (shorter after (Nat.lt_trans lt'' lt)).argumentsRest _ _ others
    refine ⟨_, lexes.append (.cons (next_mark comma (by decide)) lexes'), ts ++ .mark ',' :: us, ?_, ?_⟩
    · rw [List.append_assoc, List.cons_append]
    · exact .comma derived derived'
  · next rest' close =>
    cases read
    exact ⟨_, lexes.append (lexes_mark close (by decide)), ts, rfl, .last derived⟩
  · cases read

theorem derives_arguments : Derives (Parenthesized (IsArguments (α := α))) cs (arguments cs) := by
  intro es rest read
  rw [arguments] at read
  split at read
  · next rest' close =>
    cases read
    exact ⟨_, lexes_mark close (by decide), [], rfl, .none⟩
  · obtain ⟨_, lexes, ts, rfl, derived⟩ := derives_argumentsRest shorter _ _ read
    exact ⟨_, lexes, ts, rfl, .some derived⟩

end

/-- What is read derives. -/
theorem sound (cs : List Char) : Sound α cs := by
  generalize size : cs.length = n
  -- a part hands its whole text on only towards a primary; whatever comes behind a lexeme is shorter
  induction n using Nat.strong_induction_on generalizing cs with
  | _ n ih =>
    have shorter : ∀ cs' : List Char, cs'.length < cs.length → Sound α cs' :=
      fun cs' lt => ih cs'.length (size ▸ lt) cs' rfl
    exact {
      expression := derives_expression shorter
      additive := derives_additive shorter
      additiveRest := derives_additiveRest shorter
      term := derives_term shorter
      termRest := derives_termRest shorter
      unary := derives_unary shorter
      arguments := derives_arguments shorter
      argumentsRest := derives_argumentsRest shorter }

/-! ## Whole texts -/

/-- The text consists of these lexemes, and of white space. -/
def IsLexed (text : String) (ts : List Lexeme) : Prop := ∃ rest, Lexes text.toList ts rest ∧ skipBlank rest = []

/-- A text is read as an expression if and only if its lexemes derive it. -/
theorem parse_eq_ok_iff {text : String} {e : Expr α} :
    parse text = .ok e ↔ ∃ ts, IsLexed text ts ∧ IsExpression ts e := by
  constructor
  · intro read
    unfold parse at read
    dsimp only at read
    split at read
    · cases read
    next e' rest lt found =>
    split at read
    · next finished =>
      cases read
      have read : outcome (expression (α := α) text.toList) = some (e, rest) := by
        rw [found]
        rfl
      obtain ⟨ts, lexes, derived⟩ := (sound text.toList).expression _ _ read
      exact ⟨ts, ⟨rest, lexes, finished⟩, derived⟩
    · cases read
  · rintro ⟨ts, ⟨rest, lexes, finished⟩, derived⟩
    refine parse_of_outcome (derived.read lexes ?_) finished
    intro c hc
    rw [finished] at hc
    cases hc

end AnalogCircuit.Expr
