/-!
# Looking up ranges of characters

A property of characters is kept as an ascending array of closed ranges; membership is found by halving.
-/

namespace AnalogCircuit.Text

/-- Whether `n` lies in one of the ranges at the positions from `low` up to, but without, `high`. -/
def searchRanges (ranges : Array (Nat × Nat)) (n low high : Nat) : Bool :=
  if low < high then
    let middle := (low + high) / 2
    let range := ranges.getD middle (0, 0)
    if n < range.1 then searchRanges ranges n low middle
    else if range.2 < n then searchRanges ranges n (middle + 1) high
    else true
  else false
termination_by high - low

/-- Whether `n` lies in one of some ascending ranges. -/
def inRanges (ranges : Array (Nat × Nat)) (n : Nat) : Bool := searchRanges ranges n 0 ranges.size

end AnalogCircuit.Text
