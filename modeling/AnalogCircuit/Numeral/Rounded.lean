import AnalogCircuit.Numeral.Binary
/-!
# A fixed number of significant digits

The exact binary value is rounded onto the decimal grid of `n` digits; an exact tie goes to the even
neighbour.
-/

namespace AnalogCircuit.Numeral

/-- `n / d` rounded to the nearest natural, a tie to the even one. -/
def roundHalfEven (n d : Nat) : Nat :=
  let q := n / d
  match compare (2 * (n % d)) d with
  | .lt => q
  | .gt => q + 1
  | .eq => if q % 2 = 0 then q else q + 1

/-- The rounded quotient is at most half a unit away from the exact one. -/
theorem roundHalfEven_near (n d : Nat) (h : 0 < d) :
    2 * (roundHalfEven n d * d) ≤ 2 * n + d ∧ 2 * n ≤ 2 * (roundHalfEven n d * d) + d := by
  have e : d * (n / d) + n % d = n := Nat.div_add_mod n d
  have l : n % d < d := Nat.mod_lt _ h
  have up : (n / d + 1) * d = d * (n / d) + d := by rw [Nat.add_mul, Nat.mul_comm, Nat.one_mul]
  have same : n / d * d = d * (n / d) := Nat.mul_comm ..
  unfold roundHalfEven
  dsimp only
  split
  next hc => rw [Nat.compare_eq_lt] at hc; omega
  next hc => rw [Nat.compare_eq_gt] at hc; omega
  next hc => rw [Nat.compare_eq_eq] at hc; split <;> omega

/-- The positive value `x` with `n` significant digits, a carry into a new digit included. -/
def Binary.rounded (x : Binary) (n : Nat) : Decimal :=
  let j := x.magnitude - n
  let (num, den) := x.overGrid j
  let d := roundHalfEven num den
  if d = Nat.pow 10 n then ⟨Nat.pow 10 (n - 1), j + 1⟩ else ⟨d, j⟩

end AnalogCircuit.Numeral
