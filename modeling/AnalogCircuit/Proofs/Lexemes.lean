import AnalogCircuit.Proofs.Reading
/-!
# Lexemes of expressions

The text of an expression is a sequence of lexemes with white space between them: numerals, words, comparisons and
marks. What each of them looks like is said here without a scan, and each is the longest one that stands at its place.
The scans of the grammar find these lexemes.
-/

namespace AnalogCircuit.Expr

open Numeral Grammar

/-! ## Numerals -/

/-- Digits, or digits on both sides of a point. -/
inductive IsMantissa : List Char → (whole fraction : List Char) → Prop
  | integer {whole : List Char} (digits : ∀ d ∈ whole, isDigit d = true) : IsMantissa whole whole []
  | pointed {whole fraction : List Char} (digits : ∀ d ∈ whole, isDigit d = true)
      (digits' : ∀ d ∈ fraction, isDigit d = true) : IsMantissa (whole ++ '.' :: fraction) whole fraction

/-- Nothing, or a mark, a sign or none, and digits. -/
inductive IsExponent : List Char → Option (Bool × List Char) → Prop
  | absent : IsExponent [] none
  | unsigned {m : Char} {es : List Char} (mark : m = 'e' ∨ m = 'E') (digits : ∀ d ∈ es, isDigit d = true) :
      IsExponent (m :: es) (some (false, es))
  | signed {m s : Char} {es : List Char} (mark : m = 'e' ∨ m = 'E') (sign : s = '+' ∨ s = '-')
      (digits : ∀ d ∈ es, isDigit d = true) : IsExponent (m :: s :: es) (some (s == '-', es))

/-- Nothing, or a letter that scales and behind which there is no letter, no digit and no underscore. -/
inductive IsScale : List Char → Int → List Char → Prop
  | absent {rest : List Char} : IsScale [] 0 rest
  | letter {c : Char} {n : Int} {rest : List Char} (scales : scaleLetter? c = some n)
      (free : rest.head?.any isNameChar = false) : IsScale [c] n rest

/-- A text in front of a rest is a numeral. It denotes a magnitude, so there are digits in the mantissa, and in the
exponent if there is one. -/
inductive IsNumeral : List Char → Quantity → List Char → Prop
  | intro {ms es ss whole fraction rest : List Char} {exponent : Option (Bool × List Char)} {magnitude : Decimal}
      {n : Int} (mantissa : IsMantissa ms whole fraction) (exponential : IsExponent es exponent)
      (denotes : Literal.magnitude? ⟨false, whole, fraction, exponent⟩ = some magnitude) (scale : IsScale ss n rest) :
      IsNumeral (ms ++ (es ++ ss)) ⟨false, magnitude, n⟩ rest

section

variable {cs ms es ss whole fraction more rest rest' text : List Char} {exponent : Option (Bool × List Char)} {n : Int}
  {q q' : Quantity} {c : Char}

theorem stop_of_scaleLetter? (scales : scaleLetter? c = some n) : isDigit c = false ∧ c ≠ '.' ∧ c ≠ 'e' ∧ c ≠ 'E' := by
  unfold scaleLetter? at scales
  split at scales <;> first | decide | cases scales

theorem spanFraction_of_stop (stop : ∀ c, more.head? = some c → c ≠ '.') : spanFraction more = ([], more) := by
  cases more with
  | nil => rfl
  | cons c more => exact spanFraction_of_pointless (stop c rfl)

theorem length_spanFraction_le (cs : List Char) : (spanFraction cs).2.length ≤ cs.length := by
  unfold spanFraction
  split
  · exact Nat.le_succ_of_le (Text.length_splitWhile_le ..)
  · exact Nat.le_refl _

/-- Digits that go on behind digits. -/
theorem spanDigits_append_of_all (digits : ∀ d ∈ whole, isDigit d = true) (more : List Char) :
    (spanDigits (whole ++ more)).2 = (spanDigits more).2 := List.dropWhile_append_of_pos digits

/-! ### Numerals are read -/

theorem IsMantissa.span (h : IsMantissa ms whole fraction)
    (stop : ∀ c, more.head? = some c → isDigit c = false ∧ c ≠ '.') :
    spanDigits (ms ++ more) = (whole, (spanDigits (ms ++ more)).2) ∧
      spanFraction (spanDigits (ms ++ more)).2 = (fraction, more) := by
  cases h with
  | integer digits =>
    have split : spanDigits (ms ++ more) = (ms, more) := splitWhile_of_all digits fun c hc => (stop c hc).1
    rw [split]
    exact ⟨rfl, spanFraction_of_stop fun c hc => (stop c hc).2⟩
  | pointed digits digits' =>
    have split : spanDigits (whole ++ '.' :: (fraction ++ more)) = (whole, '.' :: (fraction ++ more)) :=
      splitWhile_of_all digits (by rintro c ⟨⟩; rfl)
    rw [List.append_assoc, List.cons_append, split]
    exact ⟨rfl, splitWhile_of_all digits' fun c hc => (stop c hc).1⟩

theorem IsMantissa.length_span_le (h : IsMantissa ms whole fraction) (more : List Char) :
    (spanFraction (spanDigits (ms ++ more)).2).2.length ≤ more.length := by
  cases h with
  | integer digits =>
    rw [spanDigits_append_of_all digits]
    exact Nat.le_trans (length_spanFraction_le _) (Text.length_splitWhile_le ..)
  | pointed digits digits' =>
    rw [List.append_assoc, spanDigits_append_of_all digits, List.cons_append]
    show (spanDigits (fraction ++ more)).2.length ≤ _
    rw [spanDigits_append_of_all digits']
    exact Text.length_splitWhile_le ..

/-- An exponent has digits. -/
theorem digits_of_magnitude? {magnitude : Decimal} {negative negative' : Bool} {ds : List Char}
    (denotes : Literal.magnitude? ⟨negative, whole, fraction, some (negative', ds)⟩ = some magnitude) :
    ∃ d ds', ds = d :: ds' := by
  cases ds with
  | nil => simp [Literal.magnitude?] at denotes
  | cons d ds' => exact ⟨d, ds', rfl⟩

theorem mark_beq {m : Char} (mark : m = 'e' ∨ m = 'E') : (m == 'e' || m == 'E') = true := by
  rcases mark with rfl | rfl <;> rfl

theorem isDigit_of_sign {s : Char} (sign : s = '+' ∨ s = '-') : isDigit s = false ∧ (s == '+' || s == '-') = true := by
  rcases sign with rfl | rfl <;> exact ⟨rfl, rfl⟩

/-- The exponent is what is found, and its digits go on into what follows. -/
theorem IsExponent.span {magnitude : Decimal} (h : IsExponent es exponent)
    (denotes : Literal.magnitude? ⟨false, whole, fraction, exponent⟩ = some magnitude) (present : es ≠ [])
    (more : List Char) :
    ∃ negative ds, exponent = some (negative, ds) ∧ (∀ d ∈ ds, isDigit d = true) ∧
      spanExponent (es ++ more) = (some (negative, (spanDigits (ds ++ more)).1), (spanDigits (ds ++ more)).2) := by
  cases h with
  | absent => exact absurd rfl present
  | unsigned mark digits =>
    obtain ⟨d, ds, rfl⟩ := digits_of_magnitude? denotes
    obtain ⟨digit, -⟩ := List.forall_mem_cons.mp digits
    refine ⟨_, _, rfl, digits, ?_⟩
    simp [spanExponent, mark_beq mark, digit]
  | signed mark sign digits =>
    obtain ⟨d, ds, rfl⟩ := digits_of_magnitude? denotes
    refine ⟨_, _, rfl, digits, ?_⟩
    simp [spanExponent, mark_beq mark, isDigit_of_sign sign]

theorem spanExponent_of_scaleLetter? (scales : scaleLetter? c = some n) (rest : List Char) :
    spanExponent (c :: rest) = (none, c :: rest) := by
  obtain ⟨-, -, e, E⟩ := stop_of_scaleLetter? scales
  exact spanExponent_of_unmarked fun c' hc' => Option.some.inj hc' ▸ ⟨e, E⟩

theorem spanScale_of_scaleLetter? (scales : scaleLetter? c = some n) (free : rest.head?.any isNameChar = false) :
    spanScale (c :: rest) = (n, rest) := by
  simp [spanScale, scales, free]

/-- What follows the mantissa does not go on with it. -/
theorem stop_of_isExponent (h : IsExponent es exponent) (scale : IsScale ss n rest) :
    ∀ c, (es ++ ss).head? = some c → isDigit c = false ∧ c ≠ '.' := by
  cases h with
  | absent =>
    cases scale with
    | absent => nofun
    | letter scales free =>
      rintro c ⟨⟩
      exact ⟨(stop_of_scaleLetter? scales).1, (stop_of_scaleLetter? scales).2.1⟩
  | unsigned mark | signed mark =>
    rintro c ⟨⟩
    rcases mark with rfl | rfl <;> decide

theorem IsScale.stop (h : IsScale ss n rest) : ∀ c, ss.head? = some c → isDigit c = false := by
  cases h with
  | absent => nofun
  | letter scales free =>
    rintro c ⟨⟩
    exact (stop_of_scaleLetter? scales).1

/-- A numeral is read if nothing comes behind it. -/
theorem spanQuantity_of_isNumeral (h : IsNumeral text q rest) : spanQuantity text = some (q, []) := by
  cases h with
  | @intro ms es ss whole fraction _ exponent magnitude n mantissa exponential denotes scale =>
  obtain ⟨first, second⟩ := mantissa.span (stop_of_isExponent exponential scale)
  have third : spanExponent (es ++ ss) = (exponent, ss) := by
    by_cases present : es = []
    · subst present
      cases exponential
      cases scale with
      | absent => rfl
      | letter => rfl
    · obtain ⟨negative, ds, rfl, digits, found⟩ := exponential.span denotes present ss
      have split : spanDigits (ds ++ ss) = (ds, ss) := splitWhile_of_all digits scale.stop
      rw [found, split]
  have fourth : spanScale ss = (n, []) := by
    cases scale with
    | absent => rfl
    | letter scales free => exact spanScale_of_scaleLetter? scales rfl
  rw [spanQuantity, spanLiteral_eq, first]
  dsimp only
  rw [second]
  dsimp only
  rw [third, denotes, Option.map_some, fourth]

/-- The parts of a number are read one behind the other. -/
theorem left_of_spanQuantity (read : spanQuantity cs = some (q, rest)) :
    (spanScale (spanExponent (spanFraction (spanDigits cs).2).2).2).2 = rest := by
  obtain ⟨magnitude, -, found⟩ := Option.map_eq_some_iff.mp read
  exact (Prod.mk.inj found).2

/-- No numeral is longer than what is read. -/
theorem length_le_of_isNumeral (h : IsNumeral text q rest) (read : spanQuantity (text ++ rest) = some (q', rest')) :
    rest'.length ≤ rest.length := by
  cases h with
  | @intro ms es ss whole fraction _ exponent magnitude n mantissa exponential denotes scale =>
  rw [← left_of_spanQuantity read, List.append_assoc, List.append_assoc]
  -- only a part at the end of the numeral may go on: the mantissa, the digits of the exponent, or nothing
  by_cases bare : es ++ ss = []
  · obtain ⟨rfl, rfl⟩ := List.append_eq_nil_iff.mp bare
    exact Nat.le_trans (length_spanScale_le _) (Nat.le_trans (spanExponent_shrinks _) (mantissa.length_span_le rest))
  have stop : ∀ c, (es ++ (ss ++ rest)).head? = some c → isDigit c = false ∧ c ≠ '.' := by
    rw [← List.append_assoc, List.head?_append_of_ne_nil _ bare]
    exact stop_of_isExponent exponential scale
  rw [(mantissa.span stop).2]
  by_cases present : es = []
  · subst present
    cases scale with
    | absent => exact absurd rfl bare
    | letter scales free =>
      show (spanScale (spanExponent (_ :: rest)).2).2.length ≤ _
      rw [spanExponent_of_scaleLetter? scales, spanScale_of_scaleLetter? scales free]
  obtain ⟨negative, ds, rfl, digits, found⟩ := exponential.span denotes present (ss ++ rest)
  rw [found]
  dsimp only
  rw [spanDigits_append_of_all digits]
  cases scale with
  | absent => exact Nat.le_trans (length_spanScale_le _) (Text.length_splitWhile_le ..)
  | @letter c _ _ scales free =>
    have split : spanDigits (c :: rest) = ([], c :: rest) := by
      simp [spanDigits, Text.splitWhile, (stop_of_scaleLetter? scales).1]
    show (spanScale (spanDigits (c :: rest)).2).2.length ≤ _
    rw [split, spanScale_of_scaleLetter? scales free]

/-- A numeral is one without what comes behind it, too. -/
theorem IsNumeral.alone (h : IsNumeral text q rest) : IsNumeral text q [] := by
  cases h with
  | intro mantissa exponential denotes scale =>
  refine .intro mantissa exponential denotes ?_
  cases scale with
  | absent => exact .absent
  | letter scales => exact .letter scales rfl

/-! ### What is read is a numeral -/

theorem forall_mem_spanDigits (cs : List Char) : ∀ d ∈ (spanDigits cs).1, isDigit d = true :=
  fun _ => List.mem_takeWhile_imp

theorem exists_isMantissa (cs : List Char) : ∃ ms, cs = ms ++ (spanFraction (spanDigits cs).2).2 ∧
    IsMantissa ms (spanDigits cs).1 (spanFraction (spanDigits cs).2).1 := by
  have whole : (spanDigits cs).1 ++ (spanDigits cs).2 = cs := Text.splitWhile_append isDigit cs
  have digits := forall_mem_spanDigits cs
  unfold spanFraction
  split
  · next more pointed =>
    have fraction : (spanDigits more).1 ++ (spanDigits more).2 = more := Text.splitWhile_append isDigit more
    refine ⟨_, ?_, .pointed digits (forall_mem_spanDigits more)⟩
    rw [List.append_assoc, List.cons_append, fraction, ← pointed, whole]
  · exact ⟨_, whole.symm, .integer digits⟩

theorem exists_isExponent (cs : List Char) :
    ∃ es, cs = es ++ (spanExponent cs).2 ∧ IsExponent es (spanExponent cs).1 := by
  unfold spanExponent
  split
  · next m c cs =>
    split
    · next marked =>
      obtain ⟨mark, digit⟩ := Bool.and_eq_true_iff.mp marked
      refine ⟨m :: (spanDigits (c :: cs)).1, ?_, .unsigned (by simpa using mark) (forall_mem_spanDigits _)⟩
      exact congrArg _ (Text.splitWhile_append isDigit _).symm
    split
    · next marked =>
      obtain ⟨mark, sign⟩ := Bool.and_eq_true_iff.mp marked
      refine ⟨m :: c :: (spanDigits cs).1, ?_,
        .signed (by simpa using mark) (by simpa using sign) (forall_mem_spanDigits _)⟩
      exact congrArg _ (congrArg _ (Text.splitWhile_append isDigit _).symm)
    · exact ⟨[], rfl, .absent⟩
  · exact ⟨[], rfl, .absent⟩

theorem exists_isScale (cs : List Char) :
    ∃ ss, cs = ss ++ (spanScale cs).2 ∧ IsScale ss (spanScale cs).1 (spanScale cs).2 := by
  unfold spanScale
  split
  · next c cs =>
    split
    · next scales free => exact ⟨[c], rfl, .letter scales free⟩
    · exact ⟨[], rfl, .absent⟩
  · exact ⟨[], rfl, .absent⟩

theorem exists_isNumeral (read : spanQuantity cs = some (q, rest)) :
    ∃ text, cs = text ++ rest ∧ IsNumeral text q rest := by
  unfold spanQuantity at read
  rw [spanLiteral_eq] at read
  obtain ⟨magnitude, denotes, found⟩ := Option.map_eq_some_iff.mp read
  obtain ⟨rfl, rfl⟩ := Prod.mk.inj found
  obtain ⟨ms, first, mantissa⟩ := exists_isMantissa cs
  obtain ⟨es, second, exponential⟩ := exists_isExponent (spanFraction (spanDigits cs).2).2
  obtain ⟨ss, third, scale⟩ := exists_isScale (spanExponent (spanFraction (spanDigits cs).2).2).2
  refine ⟨ms ++ (es ++ ss), ?_, .intro mantissa exponential denotes scale⟩
  rw [List.append_assoc, List.append_assoc]
  exact first.trans (congrArg _ (second.trans (congrArg _ third)))

end

/-! ## Lexemes -/

/-- A lexeme, and what it denotes by itself. -/
inductive Lexeme where
  | number (quantity : Quantity)
  | word (name : List Char) (previous : Bool)
  | comparison (operator : Comparison)
  | mark (c : Char)

/-- The characters that stand for themselves. -/
def marks : List Char := ['+', '-', '*', '/', '^', '(', ')', ',']

/-- The text in front of a rest is that of the lexeme. Brackets belong to the name that they follow, up to the first one
that closes, unless they mark the previous sample. -/
inductive IsLexeme : List Char → Lexeme → List Char → Prop
  | number {text rest : List Char} {q : Quantity} (numeral : IsNumeral text q rest) : IsLexeme text (.number q) rest
  | name {name rest : List Char} (identifier : IsIdentifier name) : IsLexeme name (.word name false) rest
  | previous {name inside rest : List Char} (identifier : IsIdentifier name) (unclosed : ']' ∉ inside)
      (marked : Text.trim inside = "t0".toList) : IsLexeme (name ++ '[' :: (inside ++ [']'])) (.word name true) rest
  | indexed {name inside rest : List Char} (identifier : IsIdentifier name) (unclosed : ']' ∉ inside)
      (unmarked : Text.trim inside ≠ "t0".toList) :
      IsLexeme (name ++ '[' :: (inside ++ [']'])) (.word (name ++ '[' :: (inside ++ [']'])) false) rest
  | comparison {rest : List Char} (o : Comparison) : IsLexeme o.sign.toList (.comparison o) rest
  | mark {c : Char} {rest : List Char} (mark : c ∈ marks) : IsLexeme [c] (.mark c) rest

/-- Behind white space the text starts with the lexeme, no longer one stands there, and the rest comes behind it. -/
structure Next (cs : List Char) (l : Lexeme) (text rest : List Char) : Prop where
  start : skipBlank cs = text ++ rest
  lexeme : IsLexeme text l rest
  longest : ∀ text' l' rest', text' ++ rest' = text ++ rest → IsLexeme text' l' rest' → text'.length ≤ text.length

/-- The text starts with these lexemes, and the rest comes behind them. -/
inductive Lexes : List Char → List Lexeme → List Char → Prop
  | nil {cs : List Char} : Lexes cs [] cs
  | cons {cs text rest rest' : List Char} {l : Lexeme} {ls : List Lexeme} (first : Next cs l text rest)
      (others : Lexes rest ls rest') : Lexes cs (l :: ls) rest'

section

variable {cs after text text' rest rest' name : List Char} {l : Lexeme} {ls ls' : List Lexeme} {c : Char}
  {o : Comparison} {q : Quantity} {w : Word} {previous : Bool}

/-! ### Sequences -/

theorem Lexes.append (h : Lexes cs ls rest) (h' : Lexes rest ls' rest') : Lexes cs (ls ++ ls') rest' := by
  induction h with
  | nil => exact h'
  | cons first _ ih => exact .cons first (ih h')

theorem Lexes.of_append (h : Lexes cs (ls ++ ls') rest') : ∃ rest, Lexes cs ls rest ∧ Lexes rest ls' rest' := by
  induction ls generalizing cs with
  | nil => exact ⟨cs, .nil, h⟩
  | cons l ls ih =>
    cases h with
    | cons first others =>
    obtain ⟨rest, before, behind⟩ := ih others
    exact ⟨rest, .cons first before, behind⟩

theorem Lexes.single (h : Next cs l text rest) : Lexes cs [l] rest := .cons h .nil

/-! ### Kinds of lexemes -/

/-- What a lexeme is. -/
inductive Lexeme.Kind where
  | number | word | comparison | mark

def Lexeme.kind : Lexeme → Kind
  | number _ => .number
  | word _ _ => .word
  | comparison _ => .comparison
  | mark _ => .mark

/-- What the lexemes are that start with a character. -/
def Lexeme.kindOf (c : Char) : Kind :=
  if startsNumber c then .number
  else if startsName c then .word
  else if c ∈ ['=', '!', '<', '>'] then .comparison
  else .mark

theorem Lexeme.kindOf_of_startsName (letter : startsName c = true) : kindOf c = .word := by
  rw [kindOf, if_neg (by rw [startsNumber_of_startsName letter]; nofun), if_pos letter]

theorem Lexeme.kindOf_of_mem_marks (mark : c ∈ marks) : kindOf c = .mark := by
  simp only [marks, List.mem_cons, List.not_mem_nil, or_false] at mark
  rcases mark with rfl | rfl | rfl | rfl | rfl | rfl | rfl | rfl <;> rfl

/-- The first character tells what a lexeme is. -/
theorem IsLexeme.exists_cons (h : IsLexeme text l rest) : ∃ c cs, text = c :: cs ∧ Lexeme.kindOf c = l.kind := by
  have word {name : List Char} (identifier : IsIdentifier name) :
      ∃ c cs, name = c :: cs ∧ Lexeme.kindOf c = .word := by
    cases name with
    | nil => cases identifier
    | cons c cs => exact ⟨c, cs, rfl, Lexeme.kindOf_of_startsName identifier.1⟩
  cases h with
  | number numeral =>
    obtain ⟨c, cs, whole, digit⟩ := startsNumber_of_spanQuantity (spanQuantity_of_isNumeral numeral)
    exact ⟨c, cs, whole, if_pos digit⟩
  | name identifier => exact word identifier
  | previous identifier | indexed identifier =>
    obtain ⟨c, cs, rfl, kind⟩ := word identifier
    exact ⟨c, _, rfl, kind⟩
  | comparison o => cases o <;> exact ⟨_, _, rfl, rfl⟩
  | mark mark => exact ⟨_, _, rfl, Lexeme.kindOf_of_mem_marks mark⟩

theorem IsLexeme.kind_eq (h : IsLexeme text l rest) (start : text ++ rest = c :: after) : l.kind = Lexeme.kindOf c := by
  obtain ⟨d, ds, rfl, kind⟩ := h.exists_cons
  obtain ⟨rfl, -⟩ := List.cons.inj start
  exact kind.symm

/-- The one that leaves less is the longer one. -/
theorem length_le_of_append (same : text' ++ rest' = text ++ rest) (le : rest.length ≤ rest'.length) :
    text'.length ≤ text.length := by
  have lengths := congrArg List.length same
  rw [List.length_append, List.length_append] at lengths
  omega

/-! ### Numbers -/

theorem next_number (start : skipBlank cs = c :: after) (digit : startsNumber c = true)
    (read : spanQuantity (c :: after) = some (q, rest)) : ∃ text, Next cs (.number q) text rest := by
  obtain ⟨text, whole, numeral⟩ := exists_isNumeral read
  refine ⟨text, start.trans whole, .number numeral, fun text' l' rest' same h => ?_⟩
  have kind := h.kind_eq (same.trans whole.symm)
  rw [Lexeme.kindOf, if_pos digit] at kind
  cases h with
  | number numeral' =>
    rw [whole, ← same] at read
    exact length_le_of_append same (length_le_of_isNumeral numeral' read)
  | name | previous | indexed | comparison | mark => cases kind

theorem Next.number (h : Next cs (.number q) text rest) (apart : Apart rest) : ∃ c after, skipBlank cs = c :: after ∧
    startsNumber c = true ∧ spanQuantity (c :: after) = some (q, rest) := by
  obtain ⟨start, lexeme, -⟩ := h
  cases lexeme with
  | number numeral =>
  have read := spanQuantity_of_isNumeral numeral
  obtain ⟨c, after, rfl, digit⟩ := startsNumber_of_spanQuantity read
  exact ⟨c, _, start, digit, spanQuantity_append apart read⟩

/-! ### Words -/

theorem length_spanWord_le (read : spanWord cs = some w) :
    w.rest.length ≤ (Text.splitWhile isNameChar cs).2.length := by
  unfold spanWord at read
  dsimp only at read
  split at read
  · next inner bracket =>
    split at read
    · cases read
    · next inside close rest found =>
      have shorter := Text.length_splitWhile_le (· != ']') inner
      rw [found, List.length_cons] at shorter
      rw [bracket, List.length_cons]
      split at read <;> cases read <;> dsimp only <;> omega
  · cases read
    exact Nat.le_refl _

/-- No word is longer than what is read. -/
theorem length_le_of_word (h : IsLexeme text (.word name previous) rest) (read : spanWord (text ++ rest) = some w) :
    w.rest.length ≤ rest.length := by
  have bracketed {name inside : List Char} (identifier : IsIdentifier name) (unclosed : ']' ∉ inside)
      (read : spanWord (name ++ '[' :: (inside ++ [']']) ++ rest) = some w) : w.rest = rest := by
    rw [List.append_assoc, List.cons_append, List.append_assoc, List.singleton_append,
      spanWord_bracket identifier unclosed] at read
    cases read
    split <;> rfl
  cases h with
  | name identifier =>
    refine Nat.le_trans (length_spanWord_le read) ?_
    have left : (Text.splitWhile isNameChar (text ++ rest)).2 = (Text.splitWhile isNameChar rest).2 :=
      List.dropWhile_append_of_pos identifier.forall_isNameChar
    rw [left]
    exact Text.length_splitWhile_le ..
  | previous identifier unclosed => exact Nat.le_of_eq (congrArg _ (bracketed identifier unclosed read))
  | indexed identifier unclosed => exact Nat.le_of_eq (congrArg _ (bracketed identifier unclosed read))

theorem exists_isWord (letter : startsName c = true) (read : spanWord (c :: after) = some w) :
    ∃ text, c :: after = text ++ w.rest ∧ IsLexeme text (.word w.name w.previous) w.rest := by
  rcases named : Text.splitWhile isNameChar (c :: after) with ⟨name, more⟩
  have whole : name ++ more = c :: after := by simpa [named] using Text.splitWhile_append isNameChar (c :: after)
  have identifier : IsIdentifier name := by
    have first : isNameChar c = true := isNameChar_of_startsName letter
    rw [← show (Text.splitWhile isNameChar (c :: after)).1 = name by rw [named], Text.splitWhile,
      List.takeWhile_cons_of_pos first]
    exact ⟨letter, fun _ => List.mem_takeWhile_imp⟩
  unfold spanWord at read
  rw [named] at read
  dsimp only at read
  split at read
  · next inner =>
    rcases bracket : Text.splitWhile (· != ']') inner with ⟨inside, _ | ⟨close, rest⟩⟩
    · rw [bracket] at read
      cases read
    have closed : inside ++ close :: rest = inner := by simpa [bracket] using Text.splitWhile_append (· != ']') inner
    have unclosed : ']' ∉ inside := by
      rw [← show (Text.splitWhile (· != ']') inner).1 = inside by rw [bracket]]
      exact fun h => by simpa using List.mem_takeWhile_imp h
    obtain rfl : close = ']' := by
      have head := List.head?_dropWhile_not (· != ']') inner
      rw [show inner.dropWhile (· != ']') = close :: rest from congrArg Prod.snd bracket] at head
      simpa using head
    have whole : c :: after = name ++ '[' :: (inside ++ [']']) ++ rest := by
      rw [← whole, ← closed]
      simp
    rw [bracket] at read
    dsimp only at read
    split at read
    · next marked =>
      cases read
      exact ⟨_, whole, .previous identifier unclosed marked⟩
    · next unmarked =>
      cases read
      refine ⟨_, whole, ?_⟩
      rw [List.append_assoc, List.cons_append]
      exact .indexed identifier unclosed unmarked
  · cases read
    exact ⟨_, whole.symm, .name identifier⟩

theorem next_word (start : skipBlank cs = c :: after) (letter : startsName c = true)
    (read : spanWord (c :: after) = some w) : ∃ text, Next cs (.word w.name w.previous) text w.rest := by
  obtain ⟨text, whole, word⟩ := exists_isWord letter read
  refine ⟨text, start.trans whole, word, fun text' l' rest' same h => ?_⟩
  have kind := h.kind_eq (same.trans whole.symm)
  rw [Lexeme.kindOf_of_startsName letter] at kind
  cases l' with
  | word name previous =>
    rw [whole, ← same] at read
    exact length_le_of_append same (length_le_of_word h read)
  | number | comparison | mark => cases kind

theorem Next.word (h : Next cs (.word name previous) text rest) (apart : Apart rest) :
    ∃ c after, skipBlank cs = c :: after ∧ startsName c = true ∧
      spanWord (c :: after) = some ⟨name, previous, rest⟩ := by
  obtain ⟨start, lexeme, -⟩ := h
  have bracketed {name inside : List Char} (identifier : IsIdentifier name) (unclosed : ']' ∉ inside)
      (start : skipBlank cs = name ++ '[' :: (inside ++ [']']) ++ rest) : ∃ c after, skipBlank cs = c :: after ∧
        startsName c = true ∧ spanWord (c :: after) = some (if Text.trim inside = "t0".toList then ⟨name, true, rest⟩
          else ⟨name ++ '[' :: inside ++ [']'], false, rest⟩) := by
    have read := spanWord_bracket identifier unclosed rest
    cases name with
    | nil => cases identifier
    | cons c name =>
      refine ⟨c, _, ?_, identifier.1, read⟩
      rw [start]
      simp
  cases lexeme with
  | name identifier =>
    have read := spanWord_name identifier apart
    cases text with
    | nil => cases identifier
    | cons c name => exact ⟨c, _, start, identifier.1, read⟩
  | previous identifier unclosed marked => simpa only [marked, if_true] using bracketed identifier unclosed start
  | indexed identifier unclosed unmarked =>
    simpa only [unmarked, if_false, List.append_assoc, List.cons_append] using bracketed identifier unclosed start

/-! ### Comparisons -/

theorem eq_append_of_comparison? (h : comparison? cs = some (o, rest)) : cs = o.sign.toList ++ rest := by
  unfold comparison? at h
  split at h <;> cases h <;> rfl

/-- A sign of two characters is read as such. -/
theorem comparison?_of_length (long : o.sign.toList.length = 2) (rest : List Char) :
    comparison? (o.sign.toList ++ rest) = some (o, rest) := by
  cases o with
  | lt | gt => cases long
  | eq | ne | le | ge => rfl

/-- So is a sign of one character, unless an equals sign follows. -/
theorem comparison?_of_lone (short : o.sign.toList.length = 1) (lone : rest.head? ≠ some '=') :
    comparison? (o.sign.toList ++ rest) = some (o, rest) := by
  cases o with
  | eq | ne | le | ge => cases short
  | lt =>
    show comparison? ('<' :: rest) = _
    unfold comparison?
    split <;> simp_all
  | gt =>
    show comparison? ('>' :: rest) = _
    unfold comparison?
    split <;> simp_all

theorem length_sign (o : Comparison) : o.sign.toList.length = 1 ∨ o.sign.toList.length = 2 := by
  cases o <;> decide

theorem next_comparison (operator : comparison? (skipBlank cs) = some (o, rest)) :
    Next cs (.comparison o) o.sign.toList rest := by
  have whole := eq_append_of_comparison? operator
  refine ⟨whole, .comparison o, fun text' l' rest' same h => ?_⟩
  have kind : l'.kind = .comparison := by
    obtain ⟨d, ds, sign, kind⟩ := (@IsLexeme.comparison rest o).exists_cons
    rw [sign, List.cons_append] at same
    exact (h.kind_eq same).trans kind
  cases h with
  | comparison o' =>
    rcases length_sign o' with short | long
    · rcases length_sign o with short' | long' <;> omega
    · -- the other sign would have been read
      rw [whole, ← same, comparison?_of_length long] at operator
      cases operator
      exact Nat.le_refl _
  | number | name | previous | indexed | mark => cases kind

theorem Next.comparison (h : Next cs (.comparison o) text rest) : comparison? (skipBlank cs) = some (o, rest) := by
  obtain ⟨start, lexeme, longest⟩ := h
  cases lexeme with
  | comparison =>
  rw [start]
  rcases length_sign o with short | long
  · -- with an equals sign behind it the sign would be longer
    have lone (o' : Comparison) (long : o'.sign.toList = o.sign.toList ++ ['=']) : rest.head? ≠ some '=' := by
      intro equals
      obtain ⟨more, rfl⟩ := List.head?_eq_some_iff.mp equals
      have le := longest o'.sign.toList _ more (by rw [long, List.append_assoc]; rfl) (.comparison o')
      rw [long, List.length_append, List.length_singleton] at le
      omega
    cases o with
    | eq | ne | le | ge => cases short
    | lt => exact comparison?_of_lone short (lone .le rfl)
    | gt => exact comparison?_of_lone short (lone .ge rfl)
  · exact comparison?_of_length long rest

/-! ### Marks -/

theorem next_mark (start : skipBlank cs = c :: rest) (mark : c ∈ marks) : Next cs (.mark c) [c] rest := by
  refine ⟨start, .mark mark, fun text' l' rest' same h => ?_⟩
  have kind := h.kind_eq same
  rw [Lexeme.kindOf_of_mem_marks mark] at kind
  cases h with
  | mark => exact Nat.le_refl _
  | number | name | previous | indexed | comparison => cases kind

theorem Next.mark (h : Next cs (.mark c) text rest) : skipBlank cs = c :: rest := by
  obtain ⟨start, lexeme, -⟩ := h
  cases lexeme with
  | mark => exact start

end

end AnalogCircuit.Expr
