import AnalogCircuit.Proofs.Lossless
/-!
# What a token sees of the text behind it

A token reaches as far as it can. In front of another text it is the same token, as long as that text does not go on
with it where the first one did not: with a letter or a digit, with the point of a fraction, or with the sign and the
digit of an exponent.
-/

namespace AnalogCircuit.Netlist

open Numeral

/-! ## Texts that go on with a token -/

/-- The text starts with a sign and a digit. -/
def startsSigned : List Char → Bool
  | s :: d :: _ => (s == '+' || s == '-') && isDigit d
  | _ => false

/-- The text starts with a letter, a digit or an underscore. -/
def startsWord (cs : List Char) : Bool := cs.head?.any isWordChar

/-- A token that ends in front of the first text goes no further in front of the second one. -/
structure NoFurther (rest rest' : List Char) : Prop where
  word : startsWord rest' = true → startsWord rest = true
  point : rest'.head? = some '.' → rest.head? = some '.'
  exponent : startsSigned rest' = true → startsSigned rest = true

theorem isWordChar_of_isDigit {c : Char} (h : isDigit c = true) : isWordChar c = true := by
  have number := isNumberChar_of_isDigit h
  simp only [isNumberChar, Bool.or_eq_true, beq_iff_eq] at number
  rcases number with word | rfl | rfl | rfl
  · exact word
  all_goals cases h

/-! ## Parts of numbers -/

section

variable {s rest rest' b : List Char}

/-- What is left of the first text in front of one rest is left in front of every other one. -/
theorem left_noFurther {β : Type} {x a : β} (h : (x, s ++ rest) = (a, b ++ rest)) :
    (x, s ++ rest') = (a, b ++ rest') := by
  obtain ⟨rfl, same⟩ := Prod.mk.inj h
  rw [List.append_cancel_right same]

/-- What is split off in front of one text is split off in front of every text that does not start with more of it. -/
theorem splitWhile_noFurther {p : Char → Bool} {a : List Char} (stop : ∀ c, rest.head? = some c → p c = false)
    (stop' : ∀ c, rest'.head? = some c → p c = false) (h : Text.splitWhile p (s ++ rest) = (a, b ++ rest)) :
    Text.splitWhile p (s ++ rest') = (a, b ++ rest') := by
  rw [Expr.splitWhile_append_of_stop stop] at h
  rw [Expr.splitWhile_append_of_stop stop']
  exact left_noFurther h

theorem isDigit_of_startsWord (word : startsWord rest = false) : ∀ c, rest.head? = some c → isDigit c = false := by
  intro c first
  rw [startsWord, first, Option.any_some] at word
  cases digit : isDigit c with
  | false => rfl
  | true => cases word.symm.trans (isWordChar_of_isDigit digit)

theorem spanDigits_noFurther {a : List Char} (word : startsWord rest = false) (word' : startsWord rest' = false)
    (h : spanDigits (s ++ rest) = (a, b ++ rest)) : spanDigits (s ++ rest') = (a, b ++ rest') :=
  splitWhile_noFurther (isDigit_of_startsWord word) (isDigit_of_startsWord word') h

theorem spanFraction_noFurther {a : List Char} (word : startsWord rest = false) (word' : startsWord rest' = false)
    (point : rest'.head? = some '.' → rest.head? = some '.') (h : Expr.spanFraction (s ++ rest) = (a, b ++ rest)) :
    Expr.spanFraction (s ++ rest') = (a, b ++ rest') := by
  have pointless {cs : List Char} (first : cs.head? ≠ some '.') : Expr.spanFraction cs = ([], cs) := by
    cases cs with
    | nil => rfl
    | cons c cs => exact Expr.spanFraction_of_pointless fun same => first (congrArg some same)
  rcases s with _ | ⟨c, s⟩
  · by_cases pointed : rest.head? = some '.'
    · -- the point would have been taken
      obtain ⟨r, rfl⟩ := List.head?_eq_some_iff.mp pointed
      have shorter := Text.length_splitWhile_le isDigit r
      rw [show Text.splitWhile isDigit r = (a, b ++ '.' :: r) from h, List.length_append, List.length_cons] at shorter
      omega
    · rw [List.nil_append, pointless pointed] at h
      rw [List.nil_append, pointless (pointed ∘ point)]
      exact left_noFurther (s := []) h
  · by_cases pointed : c = '.'
    · subst pointed
      exact spanDigits_noFurther word word' h
    · rw [List.cons_append, Expr.spanFraction_of_pointless pointed] at h ⊢
      exact left_noFurther (s := c :: s) h

theorem spanExponent_unmarked {m : Char} (mark : ¬(m == 'e' || m == 'E') = true) (cs : List Char) :
    spanExponent (m :: cs) = (none, m :: cs) := by
  unfold spanExponent
  dsimp only
  rw [if_neg mark]

/-- The exponent behind a mark: signed, or without a sign, or none. -/
theorem spanExponent_marked {m : Char} (mark : (m == 'e' || m == 'E') = true) (cs : List Char) :
    spanExponent (m :: cs) =
      if startsSigned cs then (some (cs.head? == some '-', (spanDigits cs.tail).1), (spanDigits cs.tail).2)
      else if cs.head?.any isDigit then (some (false, (spanDigits cs).1), (spanDigits cs).2)
      else (none, m :: cs) := by
  rcases cs with _ | ⟨s, _ | ⟨d, cs⟩⟩
  · simp [spanExponent, mark, startsSigned]
  · cases digit : isDigit s <;> simp [spanExponent, mark, startsSigned, digit, spanDigits, Text.splitWhile]
  · unfold spanExponent
    dsimp only
    rw [if_pos mark]
    rfl

theorem spanExponent_of_startsWord (word : startsWord rest = false) : spanExponent rest = (none, rest) := by
  cases rest with
  | nil => rfl
  | cons m cs =>
    refine spanExponent_unmarked (fun mark => ?_) cs
    have letter : isWordChar 'e' = true ∧ isWordChar 'E' = true := by decide
    rw [Bool.or_eq_true, beq_iff_eq, beq_iff_eq] at mark
    rcases mark with rfl | rfl
    · exact absurd letter.1 (by simpa [startsWord] using word)
    · exact absurd letter.2 (by simpa [startsWord] using word)

/-- Whether a digit comes next is seen in the same way. -/
theorem digit_noFurther (word : startsWord rest = false) (word' : startsWord rest' = false) (s : List Char) :
    (s ++ rest').head?.any isDigit = (s ++ rest).head?.any isDigit := by
  have digitless {cs : List Char} (word : startsWord cs = false) : cs.head?.any isDigit = false := by
    cases cs with
    | nil => rfl
    | cons d cs => exact isDigit_of_startsWord word d rfl
  cases s with
  | nil => exact (digitless word').trans (digitless word).symm
  | cons => rfl

/-- Whether a digit comes behind a sign is seen in the same way. -/
theorem signed_noFurther (word : startsWord rest = false) (word' : startsWord rest' = false) (x : Char)
    (s : List Char) :
    startsSigned (x :: s ++ rest') = startsSigned (x :: s ++ rest) := by
  have signed (cs : List Char) : startsSigned (x :: cs) = ((x == '+' || x == '-') && cs.head?.any isDigit) := by
    cases cs with
    | nil => exact (Bool.and_false _).symm
    | cons => rfl
  rw [List.cons_append, List.cons_append, signed, signed, digit_noFurther word word']

theorem spanExponent_noFurther {a : Option (Bool × List Char)} (word : startsWord rest = false)
    (word' : startsWord rest' = false) (exponent : startsSigned rest' = true → startsSigned rest = true)
    (h : spanExponent (s ++ rest) = (a, b ++ rest)) : spanExponent (s ++ rest') = (a, b ++ rest') := by
  rcases s with _ | ⟨m, s⟩
  · rw [List.nil_append, spanExponent_of_startsWord word] at h
    rw [List.nil_append, spanExponent_of_startsWord word']
    exact left_noFurther (s := []) h
  by_cases mark : (m == 'e' || m == 'E') = true
  case neg =>
    rw [List.cons_append, spanExponent_unmarked mark] at h ⊢
    exact left_noFurther (s := m :: s) h
  rw [List.cons_append, spanExponent_marked mark] at h ⊢
  rw [digit_noFurther word word']
  by_cases signed : startsSigned (s ++ rest) = true
  · rw [if_pos signed] at h
    obtain ⟨rfl, left⟩ := Prod.mk.inj h
    rcases s with _ | ⟨x, s⟩
    · -- the sign would have been taken
      have shorter := Text.length_splitWhile_le isDigit rest.tail
      rw [show (Text.splitWhile isDigit rest.tail).2 = b ++ rest from left, List.length_append,
        List.length_tail] at shorter
      cases rest with
      | nil => cases signed
      | cons => rw [List.length_cons] at shorter; omega
    · have same := spanDigits_noFurther (s := s) word word' (Prod.ext rfl left)
      rw [if_pos (signed_noFurther word word' x s ▸ signed)]
      simp only [List.cons_append, List.tail_cons, List.head?_cons] at same ⊢
      rw [same]
  have signed' : ¬startsSigned (s ++ rest') = true := by
    cases s with
    | nil => exact signed ∘ exponent
    | cons x s => rwa [signed_noFurther word word' x s]
  rw [if_neg signed] at h
  rw [if_neg signed']
  split at h
  · next digit =>
    rw [if_pos digit]
    obtain ⟨rfl, left⟩ := Prod.mk.inj h
    rw [spanDigits_noFurther (s := s) word word' (Prod.ext rfl left)]
  · next digitless =>
    rw [if_neg digitless]
    exact left_noFurther (s := m :: s) h

theorem Takes.exists_append {p : Char → Bool} {cs : List Char} (h : Takes p cs (b ++ rest)) : ∃ r, cs = r ++ rest := by
  obtain ⟨taken, same, -⟩ := h
  exact ⟨taken ++ b, by rw [same, List.append_assoc]⟩

theorem NoFurther.wordless (more : NoFurther rest rest') (word : startsWord rest = false) :
    startsWord rest' = false := by
  cases same : startsWord rest' with
  | false => rfl
  | true => cases word.symm.trans (more.word same)

theorem spanLiteral_noFurther {l : Literal} (more : NoFurther rest rest') (word : startsWord rest = false)
    (h : spanLiteral spanExponent (s ++ rest) = (l, b ++ rest)) :
    spanLiteral spanExponent (s ++ rest') = (l, b ++ rest') := by
  have word' := more.wordless word
  rw [Expr.spanLiteral_eq] at h ⊢
  rcases first : spanDigits (s ++ rest) with ⟨w, r₁⟩
  rw [first] at h
  dsimp only at h
  rcases second : Expr.spanFraction r₁ with ⟨f, r₂⟩
  rw [second] at h
  dsimp only at h
  rcases third : spanExponent r₂ with ⟨e, r₃⟩
  rw [third] at h
  obtain ⟨rfl, rfl⟩ := Prod.mk.inj h
  -- each part leaves the rest behind
  obtain ⟨r₂, rfl⟩ := (third ▸ takes_spanExponent r₂ : Takes _ r₂ (b ++ rest)).exists_append
  obtain ⟨r₁, rfl⟩ := (second ▸ takes_spanFraction r₁ : Takes _ r₁ (r₂ ++ rest)).exists_append
  rw [spanDigits_noFurther word word' first]
  dsimp only
  rw [spanFraction_noFurther word word' more.point second]
  dsimp only
  rw [spanExponent_noFurther word word' more.exponent third]

theorem spanSigned_noFurther {c : Char} {l : Literal} (more : NoFurther rest rest') (word : startsWord rest = false)
    (h : spanSigned (c :: s ++ rest) = (l, b ++ rest)) : spanSigned (c :: s ++ rest') = (l, b ++ rest') := by
  by_cases plus : c = '+'
  · subst plus
    exact spanLiteral_noFurther more word h
  by_cases minus : c = '-'
  · subst minus
    rcases found : spanLiteral spanExponent (s ++ rest) with ⟨l', r⟩
    rw [List.cons_append, spanSigned, found] at h
    obtain ⟨rfl, rfl⟩ := Prod.mk.inj h
    rw [List.cons_append, spanSigned, spanLiteral_noFurther more word found]
  have unsigned (cs : List Char) : spanSigned (c :: cs) = spanLiteral spanExponent (c :: cs) := by
    unfold spanSigned
    split
    · next same => cases same; exact absurd rfl plus
    · next same => cases same; exact absurd rfl minus
    · rfl
  rw [List.cons_append, unsigned] at h ⊢
  exact spanLiteral_noFurther (s := c :: s) more word h

/-- Behind a word there is no letter and no digit. -/
theorem startsWord_of_splitWhile {cs a : List Char} (h : Text.splitWhile isWordChar cs = (a, rest)) :
    startsWord rest = false := by
  obtain ⟨-, rfl⟩ := Prod.mk.inj h
  have head := List.head?_dropWhile_not isWordChar cs
  unfold startsWord
  cases first : (cs.dropWhile isWordChar).head? with
  | none => rfl
  | some c => simpa [first] using head

theorem isWordChar_of_startsWord (word : startsWord rest = false) :
    ∀ c, rest.head? = some c → isWordChar c = false := by
  intro c first
  rwa [startsWord, first] at word

theorem splitWord_noFurther {a : List Char} (more : NoFurther rest rest')
    (h : Text.splitWhile isWordChar (s ++ rest) = (a, rest)) : Text.splitWhile isWordChar (s ++ rest') = (a, rest') := by
  have word := startsWord_of_splitWhile h
  exact splitWhile_noFurther (b := []) (isWordChar_of_startsWord word)
    (isWordChar_of_startsWord (more.wordless word)) h

theorem between_append_self (s rest : List Char) : between (s ++ rest) rest = s := by simp [between]

theorem spanNumber_noFurther {c : Char} (more : NoFurther rest rest')
    (h : spanNumber (c :: s ++ rest) = (c :: s, rest)) : spanNumber (c :: s ++ rest') = (c :: s, rest') := by
  rcases signed : spanSigned (c :: s ++ rest) with ⟨l, r⟩
  rcases letters : Text.splitWhile isWordChar r with ⟨w, r'⟩
  unfold spanNumber at h ⊢
  rw [signed] at h
  dsimp only at h
  rw [letters] at h
  obtain ⟨-, rfl⟩ := Prod.mk.inj h
  obtain ⟨b, rfl⟩ := (letters ▸ Takes.splitWhile isWordChar r : Takes _ r ([] ++ r')).exists_append
  rw [spanSigned_noFurther more (startsWord_of_splitWhile letters) signed]
  dsimp only
  rw [splitWord_noFurther more letters]
  exact congrArg (·, rest') (between_append_self ..)

end

/-! ## Tokens -/

section

variable {p : Position} {s cs rest rest' : List Char} {c : Char} {t : Token}

theorem Start.of_point (next? : Option Char) :
    of '.' next? = if next?.any isDigit then .number else .word .directive := by
  simp [of]

theorem Start.of_sign (sign : c = '+' ∨ c = '-') (next? : Option Char) :
    of c next? = if next?.any (fun d => isDigit d || d == '.') then .number else .nothing := by
  have plain : Text.isAlphabetic '+' = false ∧ Text.isAlphabetic '-' = false := by decide
  have digit : isDigit '+' = false ∧ isDigit '-' = false := by decide
  rcases sign with rfl | rfl
  · cases number : next?.any (fun d => isDigit d || d == '.') <;> simp [of, plain.1, digit.1, number]
  · cases number : next?.any (fun d => isDigit d || d == '.') <;> simp [of, plain.2, digit.2, number]

/-- What a character other than a point or a sign starts does not depend on the next one. -/
theorem Start.of_other (point : c ≠ '.') (plus : c ≠ '+') (minus : c ≠ '-') (next? next?' : Option Char) :
    of c next?' = of c next? := by
  simp [of, point, plus, minus]

/-- Behind a number or a word there is no letter and no digit. -/
theorem startsWord_of_readToken (read : readToken p c cs = .ok (t, rest))
    (kind : Start.of c cs.head? = .number ∨ ∃ kind, Start.of c cs.head? = .word kind) : startsWord rest = false := by
  cases readToken_eq_ok_iff.mp read with
  | mark start | braces start =>
    rw [start] at kind
    rcases kind with number | ⟨kind, word⟩
    · cases number
    · cases word
  | number start spanned | digits start spanned =>
    obtain rfl : (spanNumber (c :: cs)).2 = rest := congrArg Prod.snd spanned
    exact startsWord_of_splitWhile rfl
  | word start spanned => exact startsWord_of_splitWhile spanned

theorem length_spanNumber_of_sign (sign : c = '+' ∨ c = '-') (cs : List Char) :
    (spanNumber (c :: cs)).2.length ≤ (spanLiteral spanExponent cs).2.length := by
  refine Nat.le_trans (Text.length_splitWhile_le ..) (Nat.le_of_eq ?_)
  rcases sign with rfl | rfl <;> rfl

/-- A sign does not stand alone. -/
theorem ne_nil_of_sign (sign : c = '+' ∨ c = '-') (read : readToken p c (s ++ rest) = .ok (t, rest)) : s ≠ [] := by
  rintro rfl
  -- the digit or the point that makes the sign start a number would have been taken
  have untaken {text : List Char} (start : Start.of c rest.head? = .number)
      (spanned : spanNumber (c :: rest) = (text, rest)) : False := by
    rw [Start.of_sign sign] at start
    split at start
    · next number =>
      obtain ⟨d, first, led⟩ := Option.any_eq_true _ _ |>.mp number
      obtain ⟨more, rfl⟩ := List.head?_eq_some_iff.mp first
      have shorter := length_spanNumber_of_sign sign (d :: more)
      have taken := @length_spanLiteral_lt _ spanExponent_shrinks d more
        (by simpa [Bool.or_eq_true, beq_iff_eq] using led)
      rw [spanned] at shorter
      exact absurd (Nat.lt_of_le_of_lt shorter taken) (Nat.lt_irrefl _)
    · cases start
  cases readToken_eq_ok_iff.mp read with
  | number start spanned | digits start spanned => exact untaken start spanned
  | mark start | braces start | word start =>
    rw [List.nil_append, Start.of_sign sign] at start
    split at start <;> cases start

theorem spanBraces_noFurther {depth : Nat} {a : List Char} (h : spanBraces depth (s ++ rest) = some (a, rest)) :
    spanBraces depth (s ++ rest') = some (a, rest') := by
  induction s generalizing depth a with
  | nil =>
    -- the braces have been read past
    have same := congrArg List.length (eq_append_of_spanBraces h)
    rw [List.nil_append, List.length_append, List.length_cons] at same
    omega
  | cons c s ih =>
    rw [List.cons_append] at h ⊢
    unfold spanBraces at h ⊢
    split at h
    · cases h
    next line =>
    rw [if_neg line]
    split at h
    · next opens =>
      obtain ⟨⟨a', r⟩, inside, e⟩ := Option.map_eq_some_iff.mp h
      cases e
      rw [if_pos opens, ih inside]
      rfl
    next plain =>
    rw [if_neg plain]
    split at h
    · next closes =>
      rw [if_pos closes]
      cases depth with
      | zero =>
        obtain ⟨rfl, left⟩ := Prod.mk.inj (Option.some.inj h)
        obtain rfl : s = [] := by simpa using left
        rfl
      | succ depth =>
        obtain ⟨⟨a', r⟩, inside, e⟩ := Option.map_eq_some_iff.mp h
        cases e
        dsimp only
        rw [ih inside]
        rfl
    · next other =>
      obtain ⟨⟨a', r⟩, inside, e⟩ := Option.map_eq_some_iff.mp h
      cases e
      rw [if_neg other, ih inside]
      rfl

theorem start_noFurther (more : NoFurther rest rest') (read : readToken p c (s ++ rest) = .ok (t, rest)) :
    Start.of c (s ++ rest').head? = Start.of c (s ++ rest).head? := by
  rcases s with _ | ⟨d, s⟩
  case cons => rfl
  by_cases point : c = '.'
  · subst point
    have word : startsWord rest = false := by
      refine startsWord_of_readToken read ?_
      rw [List.nil_append, Start.of_point]
      split
      · exact .inl rfl
      · exact .inr ⟨_, rfl⟩
    rw [Start.of_point, Start.of_point, digit_noFurther word (more.wordless word)]
  by_cases sign : c = '+' ∨ c = '-'
  · exact absurd rfl (ne_nil_of_sign sign read)
  · rw [not_or] at sign
    exact Start.of_other point sign.1 sign.2 ..

/-- A token is the same in front of every text that does not go on with it further. -/
theorem readToken_noFurther (more : NoFurther rest rest') (read : readToken p c (s ++ rest) = .ok (t, rest)) :
    readToken p c (s ++ rest') = .ok (t, rest') := by
  have start' := start_noFurther more read
  -- a number takes just the characters in front of the rest
  have number {text : List Char} (spanned : spanNumber (c :: (s ++ rest)) = (text, rest)) :
      spanNumber (c :: (s ++ rest')) = (text, rest') := by
    obtain rfl : text = c :: s := by
      have whole := append_of_spanNumber spanned
      rw [← List.cons_append] at whole
      exact (List.append_cancel_right whole).symm
    exact spanNumber_noFurther more spanned
  refine readToken_eq_ok_iff.mpr ?_
  generalize whole : s ++ rest = cs at read start'
  cases readToken_eq_ok_iff.mp read with
  | mark start =>
    obtain rfl : s = [] := by simpa using whole
    exact .mark (start'.trans start)
  | braces start spanned => exact .braces (start'.trans start) (spanBraces_noFurther (whole ▸ spanned))
  | number start spanned denotes => exact .number (start'.trans start) (number (whole ▸ spanned)) denotes
  | digits start spanned denotes digit => exact .digits (start'.trans start) (number (whole ▸ spanned)) denotes digit
  | word start spanned => exact .word (start'.trans start) (splitWord_noFurther more (whole ▸ spanned))

end

end AnalogCircuit.Netlist
