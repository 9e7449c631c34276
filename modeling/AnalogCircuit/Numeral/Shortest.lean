import AnalogCircuit.Numeral.Binary
/-!
# The fewest digits that read back

For 1, 2, … 17 digits the value has two neighbours on the decimal grid of that many digits. The
first grid of which a neighbour rounds to the value again gives the digits; of two such neighbours
the nearer is taken, and of two equally near ones the upper.
-/

namespace AnalogCircuit.Numeral

/-- The neighbour of `x` on the grid `10 ^ j` that identifies it, if there is one. -/
def Binary.onGrid? (x : Binary) (j : Int) : Option Decimal :=
  let (n, d) := x.overGrid j
  let below : Decimal := ⟨n / d, j⟩
  let above : Decimal := ⟨n / d + 1, j⟩
  match x.readsBack below, x.readsBack above with
  | true, true => if 2 * (n % d) < d then some below else some above
  | true, false => some below
  | false, true => some above
  | false, false => none

/-- Whatever `onGrid?` returns identifies `x`. -/
theorem Binary.readsBack_of_onGrid? {x : Binary} {j : Int} {d : Decimal}
    (h : x.onGrid? j = some d) : x.readsBack d = true := by
  unfold Binary.onGrid? at h
  dsimp only at h
  split at h
  · split at h <;> cases h <;> assumption
  · cases h; assumption
  · cases h; assumption
  · cases h

/-- The exact decimal value, which ends because `10` has the factor `2`. -/
def Binary.exact (x : Binary) : Decimal :=
  if 0 ≤ x.exponent then ⟨x.mantissa * Nat.pow 2 x.exponent.toNat, 0⟩
  else ⟨x.mantissa * Nat.pow 5 (-x.exponent).toNat, x.exponent⟩

/-- The shortest decimal that reads back as the positive value `x`. -/
def Binary.shortest (x : Binary) : Decimal :=
  let k := x.magnitude
  ((List.range 17).findSome? fun n : Nat => x.onGrid? (k - (n + 1))).getD x.exact

/-- The first grid with a neighbour that identifies `x` gives the digits. -/
theorem Binary.shortest_eq {x : Binary} {n : Nat} {d : Decimal}
    (hn : n < 17) (hd : x.onGrid? (x.magnitude - (n + 1)) = some d)
    (coarser : ∀ i < n, x.onGrid? (x.magnitude - (i + 1)) = none) : x.shortest = d := by
  have found : (List.range 17).findSome? (fun n : Nat => x.onGrid? (x.magnitude - (n + 1)))
      = some d := by
    obtain ⟨m, hm⟩ : ∃ m, 17 = n + (m + 1) := ⟨16 - n, by omega⟩
    have none : (List.range n).findSome? (fun n : Nat => x.onGrid? (x.magnitude - (n + 1)))
        = none := by
      rw [List.findSome?_eq_none_iff]
      exact fun i hi => coarser i (List.mem_range.mp hi)
    rw [hm, List.range_add, List.findSome?_append, none, List.range_succ_eq_map]
    simp [hd]
  simp only [Binary.shortest, found, Option.getD_some]

end AnalogCircuit.Numeral
