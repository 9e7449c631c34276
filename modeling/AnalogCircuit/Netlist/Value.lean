import AnalogCircuit.Error
import AnalogCircuit.Numeral.Literal
import AnalogCircuit.Text.Blank
import AnalogCircuit.Text.Letter
/-!
# Component values

A value is a signed decimal literal, a scale suffix and letters that name a unit and mean nothing, as in
`10k`, `4.7uF` or `1meg`. `M` is mega and `m` is milli; `meg` in any case is mega too.

The suffix is inspected by bytes: whether it starts with `meg` is decided on its first three bytes, and
a text in which the third byte lies inside a character is refused as a whole.
-/

namespace AnalogCircuit.Netlist

open Numeral

/-! ## Literals -/

/-- The exponent at the start of a text: a mark, a sign or none, and at least one digit. -/
def spanExponent : ExponentRule
  | m :: cs =>
    if m == 'e' || m == 'E' then
      match cs with
      | s :: d :: r =>
        if (s == '+' || s == '-') && isDigit d then
          let (es, rest) := spanDigits (d :: r)
          (some (s == '-', es), rest)
        else if isDigit s then
          let (es, rest) := spanDigits (s :: d :: r)
          (some (false, es), rest)
        else (none, m :: cs)
      | [d] => if isDigit d then (some (false, [d]), []) else (none, m :: cs)
      | [] => (none, m :: cs)
    else (none, m :: cs)
  | [] => (none, [])

theorem spanExponent_shrinks : ExponentRule.Shrinks spanExponent := by
  intro cs
  unfold spanExponent
  have digits := Text.length_splitWhile_le isDigit
  split
  · split
    · split
      · split
        · exact Nat.le_trans (digits _) (by simp only [List.length_cons]; omega)
        · split
          · exact Nat.le_trans (digits _) (by simp only [List.length_cons]; omega)
          · exact Nat.le_refl _
      · split
        · exact Nat.zero_le _
        · exact Nat.le_refl _
      · exact Nat.le_refl _
    · exact Nat.le_refl _
  · exact Nat.le_refl _

/-- The literal with its sign at the start of a text, and what follows it. -/
def spanSigned : List Char → Literal × List Char
  | '+' :: cs => spanLiteral spanExponent cs
  | '-' :: cs =>
    let (literal, rest) := spanLiteral spanExponent cs
    ({ literal with negative := true }, rest)
  | cs => spanLiteral spanExponent cs

/-! ## Suffixes -/

/-- The byte at this position, if there is one, is not the first of a character. -/
def splitsCharacter : Nat → List Char → Bool
  | 0, _ => false
  | _, [] => false
  | n, c :: cs => if c.utf8Size ≤ n then splitsCharacter (n - c.utf8Size) cs else true

/-- The power of ten at the start of a suffix, and the unit behind it. -/
def spanScale : List Char → Int × List Char
  | a :: b :: c :: unit =>
    if [a, b, c].map Char.toLower == ['m', 'e', 'g'] then (6, unit) else letter a (b :: c :: unit)
  | a :: unit => letter a unit
  | [] => (0, [])
where
  /-- The power of ten of a single letter; any other character belongs to the unit. -/
  letter (c : Char) (unit : List Char) : Int × List Char :=
    match c with
    | 'f' => (-15, unit)
    | 'p' => (-12, unit)
    | 'n' => (-9, unit)
    | 'u' | 'µ' => (-6, unit)
    | 'm' => (-3, unit)
    | 'k' | 'K' => (3, unit)
    | 'M' => (6, unit)
    | 'G' => (9, unit)
    | 'T' => (12, unit)
    | c => (0, c :: unit)

/-! ## Values -/

/-- The characters with which a value may start. -/
def startsValue (c : Char) : Bool := isDigit c || c == '.' || c == '+' || c == '-'

/-- The quantity that a text denotes, if it is one. -/
def readQuantity (text : List Char) : Except Error (Option Quantity) :=
  match Text.trim text with
  | [] => .ok none
  | c :: cs =>
    if startsValue c then
      let (literal, suffix) := spanSigned (c :: cs)
      match literal.magnitude? with
      | none => .ok none
      | some magnitude =>
        if splitsCharacter 3 suffix then .error (.splitSuffix (String.ofList suffix))
        else
          let (scale, unit) := spanScale suffix
          .ok (if unit.all Text.isAlphabetic then some ⟨literal.negative, magnitude, scale⟩
            else none)
    else .ok none

/-- The number that a text denotes, if it denotes one. -/
def readValue {α : Type} [Scalar α] (text : String) : Except Error (Option α) :=
  (readQuantity text.toList).map (·.map Quantity.value)

end AnalogCircuit.Netlist
