/-!
# Splitting texts

The longest start of a text whose characters all have a property, and the rest: nothing is lost, and
the rest does not start with such a character. The lines of a text.
-/

namespace AnalogCircuit.Text

/-- The longest start with the property, and the rest. -/
def splitWhile (p : Char → Bool) (cs : List Char) : List Char × List Char :=
  (cs.takeWhile p, cs.dropWhile p)

theorem splitWhile_append (p : Char → Bool) (cs : List Char) :
    (splitWhile p cs).1 ++ (splitWhile p cs).2 = cs := List.takeWhile_append_dropWhile

theorem length_splitWhile_le (p : Char → Bool) (cs : List Char) :
    (splitWhile p cs).2.length ≤ cs.length := (List.dropWhile_suffix p).length_le

/-- A first character with the property is split off. -/
theorem length_splitWhile_lt {p : Char → Bool} {c : Char} {cs : List Char} (h : p c = true) :
    (splitWhile p (c :: cs)).2.length < (c :: cs).length := by
  unfold splitWhile
  rw [List.dropWhile_cons_of_pos h]
  exact Nat.lt_succ_of_le (List.dropWhile_suffix p).length_le

/-! ## Lines -/

/-- The lines of a text, of which `line` is read so far, backwards. -/
def linesFrom (line : List Char) : List Char → List (List Char)
  | [] => if line.isEmpty then [] else [line.reverse]
  | '\n' :: cs =>
    (match line with
      | '\r' :: line => line
      | line => line).reverse :: linesFrom [] cs
  | c :: cs => linesFrom (c :: line) cs

/-- The lines of a text. A line ends at a line feed, to which a carriage return in front of it belongs;
a text that ends with a line feed has no empty line behind it. -/
def lines (s : String) : List String := (linesFrom [] s.toList).map String.ofList

end AnalogCircuit.Text
