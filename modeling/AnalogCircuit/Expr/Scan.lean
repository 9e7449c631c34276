import AnalogCircuit.Numeral.Literal
import AnalogCircuit.Text.Blank
import AnalogCircuit.Text.Split
/-!
# Numbers and names in the text of an expression

The longest number and the longest name at the start of a text. A number may carry one letter that
scales it, unless the letter begins a word. A name may be followed at once by a text in brackets, which
belongs to it, except that `[t0]` marks the previous sample.
-/

namespace AnalogCircuit.Expr

open Numeral

/-- What the text of an expression can be rejected for. -/
inductive Fault where
  | trailingInput
  | expected (token : Char)
  | unexpectedCharacter
  | unexpectedEnd
  | malformedNumber
  | unterminatedBracket
  | conditionArguments
  | timeArgument
  | wrongArity (function : Builtin)
deriving DecidableEq, Repr

/-- The words in which a fault is reported. -/
def Fault.message : Fault → String
  | trailingInput => "unexpected trailing input"
  | expected token => "expected '" ++ token.toString ++ "'"
  | unexpectedCharacter => "unexpected character"
  | unexpectedEnd => "unexpected end of expression"
  | malformedNumber => "malformed number"
  | unterminatedBracket => "unterminated '['"
  | conditionArguments => "if takes three arguments"
  | timeArgument => "D(x, t) needs a variable"
  | wrongArity f => f.name ++ " takes " ++ toString f.arity ++ " arguments"

/-- White space between tokens is skipped. -/
def skipBlank (cs : List Char) : List Char := cs.dropWhile Text.isAsciiBlank

theorem length_skipBlank_le (cs : List Char) : (skipBlank cs).length ≤ cs.length :=
  (List.dropWhile_suffix _).length_le

/-! ## Numbers -/

/-- The characters at which a number starts. -/
def startsNumber (c : Char) : Bool := isDigit c || c == '.'

/-- The exponent at the start of a text: a mark followed by a digit or a sign, then digits. -/
def spanExponent : ExponentRule
  | m :: c :: cs =>
    if (m == 'e' || m == 'E') && isDigit c then
      let (es, rest) := spanDigits (c :: cs)
      (some (false, es), rest)
    else if (m == 'e' || m == 'E') && (c == '+' || c == '-') then
      let (es, rest) := spanDigits cs
      (some (c == '-', es), rest)
    else (none, m :: c :: cs)
  | cs => (none, cs)

/-- The power of ten that a scale letter stands for. -/
def scaleLetter? : Char → Option Int
  | 'p' => some (-12)
  | 'n' => some (-9)
  | 'u' => some (-6)
  | 'm' => some (-3)
  | 'k' | 'K' => some 3
  | 'M' => some 6
  | 'G' => some 9
  | _ => none

/-- The characters of names. -/
def isNameChar (c : Char) : Bool := c.isAlphanum || c == '_'

/-- The scale at the start of a text: one letter that no name character follows. -/
def spanScale : List Char → Int × List Char
  | c :: cs =>
    match scaleLetter? c, cs.head?.any isNameChar with
    | some scale, false => (scale, cs)
    | _, _ => (0, c :: cs)
  | [] => (0, [])

/-- The number at the start of a text. -/
def spanQuantity (cs : List Char) : Option (Quantity × List Char) :=
  let (literal, rest) := spanLiteral spanExponent cs
  literal.magnitude?.map fun magnitude =>
    let (scale, rest) := spanScale rest
    (⟨false, magnitude, scale⟩, rest)

/-! ## Names -/

/-- The characters at which a name starts. -/
def startsName (c : Char) : Bool := c.isAlpha || c == '_'

/-- A name, whether it is marked as the previous sample, and what follows. -/
structure Word where
  name : List Char
  previous : Bool
  rest : List Char

/-- The name at the start of a text, with the brackets that follow it; none if they do not close. -/
def spanWord (cs : List Char) : Option Word :=
  let (name, rest) := Text.splitWhile isNameChar cs
  match rest with
  | '[' :: inner =>
    match Text.splitWhile (· != ']') inner with
    | (_, []) => none
    | (inside, close :: rest) =>
      if Text.trim inside = "t0".toList then some ⟨name, true, rest⟩
      else some ⟨name ++ '[' :: inside ++ [close], false, rest⟩
  | rest => some ⟨name, false, rest⟩

/-! ## Progress -/

theorem spanExponent_shrinks : ExponentRule.Shrinks spanExponent := by
  intro cs
  match cs with
  | [] | [_] => exact Nat.le_refl _
  | m :: c :: cs =>
    simp only [spanExponent]
    split
    · exact Nat.le_trans (Text.length_splitWhile_le ..) (Nat.le_succ _)
    · split
      · exact Nat.le_trans (Text.length_splitWhile_le ..) (by simp only [List.length_cons]; omega)
      · exact Nat.le_refl _

theorem length_spanScale_le (cs : List Char) : (spanScale cs).2.length ≤ cs.length := by
  match cs with
  | [] => simp [spanScale]
  | c :: cs => simp only [spanScale]; split <;> simp

/-- A number that starts takes at least one character. -/
theorem length_spanQuantity_lt {c : Char} {cs : List Char} (h : startsNumber c = true)
    {r : Quantity × List Char} (hr : spanQuantity (c :: cs) = some r) :
    r.2.length < (c :: cs).length := by
  have literal := @length_spanLiteral_lt _ spanExponent_shrinks c cs <| by
    simpa only [startsNumber, Bool.or_eq_true, beq_iff_eq] using h
  unfold spanQuantity at hr
  dsimp only at hr
  obtain ⟨_, _, rfl⟩ := Option.map_eq_some_iff.mp hr
  exact Nat.lt_of_le_of_lt (length_spanScale_le _) literal

/-- A name that starts takes at least one character. -/
theorem length_spanWord_lt {c : Char} {cs : List Char} (h : startsName c = true) {w : Word}
    (hw : spanWord (c :: cs) = some w) : w.rest.length < (c :: cs).length := by
  have name : isNameChar c = true := by
    simp only [startsName, isNameChar, Char.isAlphanum, Bool.or_eq_true] at h ⊢
    rcases h with h | h
    · exact .inl (.inl h)
    · exact .inr h
  have start := @Text.length_splitWhile_lt _ _ cs name
  unfold spanWord at hw
  dsimp only at hw
  split at hw
  · next inner hi =>
    rw [hi] at start
    split at hw
    · cases hw
    · next inside close rest hs =>
      have tail := Text.length_splitWhile_le (· != ']') inner
      rw [hs] at tail
      simp only [List.length_cons] at start tail ⊢
      split at hw <;> cases hw <;> dsimp only <;> omega
  · cases hw; exact start

end AnalogCircuit.Expr
