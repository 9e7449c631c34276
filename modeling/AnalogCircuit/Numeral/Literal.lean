import AnalogCircuit.Scalar.Basic
import AnalogCircuit.Numeral.Binary
import AnalogCircuit.Text.Split
/-!
# Numeric literals

A decimal literal with an optional fraction and exponent, and a quantity: a literal with a power of ten
behind it that a suffix stands for. Both scanners of numbers, the one of expressions and the one of
netlists, produce quantities, so that equal texts denote equal numbers.
-/

namespace AnalogCircuit.Numeral

/-- An ASCII digit. -/
def isDigit (c : Char) : Bool := '0' ≤ c && c ≤ '9'

/-- The natural number written by digits. -/
def digitsValue (ds : List Char) : Nat :=
  ds.foldl (fun n c => 10 * n + (c.toNat - '0'.toNat)) 0

/-- The parts of a decimal literal. An exponent is its sign and its digits. -/
structure Literal where
  negative : Bool
  whole : List Char
  fraction : List Char
  exponent : Option (Bool × List Char)
deriving DecidableEq, Repr

/-- A literal denotes a number if it has a digit before the exponent and one in it. -/
def Literal.magnitude? (l : Literal) : Option Decimal :=
  let digits := l.whole ++ l.fraction
  if digits.isEmpty then none
  else
    let shift : Int := -(l.fraction.length : Int)
    match l.exponent with
    | none => some ⟨digitsValue digits, shift⟩
    | some (_, []) => none
    | some (negative, es) =>
      let e : Int := digitsValue es
      some ⟨digitsValue digits, shift + if negative then -e else e⟩

/-- A number and the power of ten that its suffix stands for. -/
structure Quantity where
  negative : Bool
  magnitude : Decimal
  scale : Int
deriving DecidableEq, Repr

/-- The value of a quantity: the literal is converted first, then multiplied by its scale. -/
def Quantity.value {α : Type} [Scalar α] (q : Quantity) : α :=
  let v : α := Scalar.ofDecimal q.magnitude.digits q.magnitude.exponent
  (if q.negative then -v else v) * Scalar.ofDecimal 1 q.scale

/-! ## Scanning -/

/-- Splits off the leading digits. -/
def spanDigits (cs : List Char) : List Char × List Char := Text.splitWhile isDigit cs

/-- How an exponent is recognised: its sign and digits, if there is one, and the rest of the text. -/
abbrev ExponentRule : Type := List Char → Option (Bool × List Char) × List Char

/-- The unsigned literal at the start of a text, and what follows it. -/
def spanLiteral (spanExponent : ExponentRule) (cs : List Char) : Literal × List Char :=
  let (whole, rest) := spanDigits cs
  let (fraction, rest) := match rest with
    | '.' :: r => spanDigits r
    | r => ([], r)
  let (exponent, rest) := spanExponent rest
  (⟨false, whole, fraction, exponent⟩, rest)

/-- A rule whose rest is never longer than the text. -/
def ExponentRule.Shrinks (rule : ExponentRule) : Prop := ∀ cs, (rule cs).2.length ≤ cs.length

theorem length_spanLiteral_le {rule : ExponentRule} (hr : rule.Shrinks) (cs : List Char) :
    (spanLiteral rule cs).2.length ≤ cs.length := by
  unfold spanLiteral
  dsimp only
  refine Nat.le_trans (hr _) ?_
  have := Text.length_splitWhile_le isDigit cs
  split
  · next r e =>
    simp only [spanDigits] at e
    rw [e, List.length_cons] at this
    exact Nat.le_trans (Text.length_splitWhile_le ..) (Nat.le_of_succ_le this)
  · exact this

/-- A literal that starts with a digit or a point takes at least one character. -/
theorem length_spanLiteral_lt {rule : ExponentRule} (hr : rule.Shrinks) {c : Char}
    {cs : List Char} (h : isDigit c = true ∨ c = '.') :
    (spanLiteral rule (c :: cs)).2.length < (c :: cs).length := by
  unfold spanLiteral
  dsimp only
  refine Nat.lt_of_le_of_lt (hr _) ?_
  rcases h with h | rfl
  · have := @Text.length_splitWhile_lt isDigit c cs h
    split
    · next r e =>
      simp only [spanDigits] at e
      rw [e, List.length_cons] at this
      exact Nat.lt_of_le_of_lt (Text.length_splitWhile_le ..) (Nat.lt_of_succ_lt this)
    · exact this
  · have e : spanDigits ('.' :: cs) = ([], '.' :: cs) := rfl
    rw [e]
    exact Nat.lt_succ_of_le (Text.length_splitWhile_le ..)

end AnalogCircuit.Numeral
