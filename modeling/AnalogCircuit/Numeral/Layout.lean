import AnalogCircuit.Numeral.Shortest
import AnalogCircuit.Numeral.Rounded
/-!
# How numbers are written

Two forms. `plain` writes the fewest digits that identify a double, always positionally and without
an idle point. `scientific` writes ten significant digits and an exponent without padding. Both write
the sign of a zero, and neither writes the sign of a NaN.
-/

namespace AnalogCircuit.Numeral

/-! ## Positional form -/

/-- The decimal digits of a natural number. -/
def digitsOf (n : Nat) : List Char := (Nat.repr n).toList

/-- Drops the zeros at the end of a list of digits. -/
def dropTrailingZeros (ds : List Char) : List Char :=
  (ds.reverse.dropWhile (· == '0')).reverse

/-- Writes a decimal positionally: padded with zeros on the side where digits are missing. -/
def Decimal.positional (d : Decimal) : List Char :=
  let ds := digitsOf d.digits
  if 0 ≤ d.exponent then ds ++ List.replicate d.exponent.toNat '0'
  else
    let places := (-d.exponent).toNat
    let padded := List.replicate (places + 1 - ds.length) '0' ++ ds
    let (whole, fraction) := padded.splitAt (padded.length - places)
    match dropTrailingZeros fraction with
    | [] => whole
    | fraction => whole ++ '.' :: fraction

/-- The sign in front of a number. -/
def signOf (x : Float) : List Char := if isNegative x then ['-'] else []

/-- The fewest digits that identify `x`, written positionally. -/
def plain (x : Float) : List Char :=
  if x.isNaN then "NaN".toList
  else if x.isInf then signOf x ++ "inf".toList
  else if x == 0 then signOf x ++ ['0']
  else signOf x ++ (Binary.ofFloat x).shortest.positional

/-! ## Scientific form -/

/-- Writes `d` with one digit before the point. -/
def Decimal.scientific (d : Decimal) : List Char :=
  match digitsOf d.digits with
  | [] => []
  | lead :: rest =>
    lead :: '.' :: rest ++ 'e' :: (toString (d.exponent + rest.length)).toList

/-- Ten significant digits of `x` and the exponent of the first one. -/
def tenDigits (x : Float) : List Char :=
  if x.isNaN then "NaN".toList
  else if x.isInf then signOf x ++ "inf".toList
  else if x == 0 then signOf x ++ "0.000000000e0".toList
  else signOf x ++ ((Binary.ofFloat x).rounded 10).scientific

end AnalogCircuit.Numeral
