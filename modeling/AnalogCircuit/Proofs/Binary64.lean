import Mathlib
import AnalogCircuit.Scalar.Double
/-!
# The binary format of doubles

What the bits of a double say: a sign, an exponent and a mantissa. Putting the three together again gives the bits
back, and multiplying a number by a power of two of full precision, which one is, rounds nothing away.
-/

namespace AnalogCircuit.Binary64

open Float.Model (Format UnpackedFloat)
open Float.Model.UnpackedFloat

/-! ## The fields of the bits -/

variable {b : BitVec 64}

theorem toNat_unpackMantissa (b : BitVec 64) : (@unpackMantissa Format.binary64 b).toNat = b.toNat % 2 ^ 52 := by
  simp [unpackMantissa]

theorem toNat_unpackExponent (b : BitVec 64) :
    (@unpackExponent Format.binary64 b).toNat = b.toNat / 2 ^ 52 % 2 ^ 11 := by
  simp [unpackExponent, Nat.shiftRight_eq_div_pow]

theorem toNat_unpackSign (b : BitVec 64) : (@unpackSign Format.binary64 b).toNat = b.toNat / 2 ^ 63 := by
  have : b.toNat < 2 ^ 64 := b.isLt
  simp [unpackSign, Nat.shiftRight_eq_div_pow]
  omega

/-- A finite number is in the form in which the bits keep it. -/
structure Kept (m : Nat) (e : Int) : Prop where
  short : m < 2 ^ 53
  least : -1074 ≤ e
  greatest : e ≤ 971
  full : 2 ^ 52 ≤ m ∨ e = -1074

/-- The bits say the sign of a finite number, and keep its mantissa and its exponent. -/
theorem finite_of_unpack {s : Sign} {m : Nat} {e : Int} {positive : 0 < m}
    (h : UnpackedFloat.unpack Format.binary64 b = .finite s m e positive) :
    s = Sign.ofBitVec (@unpackSign Format.binary64 b) ∧ Kept m e := by
  have bias : Format.binary64.exponentBias = 1023 := rfl
  have short : (@unpackMantissa Format.binary64 b).toNat < 2 ^ 52 := BitVec.isLt _
  have range : (@unpackExponent Format.binary64 b).toNat < 2 ^ 11 := BitVec.isLt _
  unfold UnpackedFloat.unpack at h
  dsimp only at h
  -- The cases are those of the exponent: all ones, all zeros, and the rest.
  split at h
  · split at h <;> cases h
  · next top =>
    split at h
    · next bottom =>
      split at h
      · cases h
      · cases h
        exact ⟨rfl, by omega, by simp [bottom, bias], by simp [bottom, bias], .inr (by simp [bottom, bias])⟩
    · next bottom =>
      cases h
      have top : (@unpackExponent Format.binary64 b).toNat ≠ 2047 := fun all => top (BitVec.eq_of_toNat_eq all)
      have bottom : (@unpackExponent Format.binary64 b).toNat ≠ 0 := fun none => bottom (BitVec.eq_of_toNat_eq none)
      have mantissa : (1#1 ++ @unpackMantissa Format.binary64 b).toNat =
          2 ^ 52 + (@unpackMantissa Format.binary64 b).toNat := by
        rw [BitVec.toNat_append, ← Nat.shiftLeft_add_eq_or_of_lt short]
        rfl
      exact ⟨rfl, by omega, by omega, by omega, .inl (by omega)⟩

/-- A finite number is negative if the highest bit is set. -/
theorem le_toNat_iff {s : Sign} {m : Nat} {e : Int} {positive : 0 < m}
    (h : UnpackedFloat.unpack Format.binary64 b = .finite s m e positive) : 2 ^ 63 ≤ b.toNat ↔ s = .negative := by
  have top := toNat_unpackSign b
  rw [(finite_of_unpack h).1]
  generalize @unpackSign Format.binary64 b = t at top ⊢
  have := b.isLt
  obtain rfl | rfl := BitVec.eq_zero_or_eq_one t
  · change 0 = b.toNat / 2 ^ 63 at top
    exact ⟨fun _ => by omega, nofun⟩
  · change 1 = b.toNat / 2 ^ 63 at top
    exact ⟨fun _ => rfl, fun _ => by omega⟩

/-- What is unpacked to a number is packed to the same bits. -/
theorem pack_unpack_of_ne (number : UnpackedFloat.unpack Format.binary64 b ≠ .notANumber) :
    UnpackedFloat.pack Format.binary64 (UnpackedFloat.unpack Format.binary64 b) = b := by
  rw [@pack_unpack Format.binary64 b (by decide)]
  refine if_neg fun none => number ?_
  simp only [isNaNBits, decide_eq_true_eq] at none
  simp [UnpackedFloat.unpack, none]

/-! ## Exact multiplication -/

/-- Zeros are shifted out without a trace. -/
theorem shiftRight_exact (m k : Nat) :
    (⟨2 ^ k * m, false, false⟩ : ExtendedMantissa) >>> k = ⟨m, false, false⟩ := by
  show k.repeat ExtendedMantissa.shiftRightOne _ = _
  induction k generalizing m with
  | zero => simp [Nat.repeat]
  | succ k ih =>
    rw [Nat.repeat, Nat.pow_succ, Nat.mul_assoc, ih]
    simp [ExtendedMantissa.shiftRightOne]

theorem log2_two_pow_mul {m : Nat} (positive : 0 < m) (k : Nat) : (2 ^ k * m).log2 = m.log2 + k := by
  induction k with
  | zero => simp
  | succ k ih =>
    have nonzero : 2 ^ k * m ≠ 0 := Nat.ne_of_gt (Nat.mul_pos (Nat.two_pow_pos k) positive)
    rw [Nat.pow_succ', Nat.mul_assoc, Nat.log2_two_mul nonzero, ih, Nat.add_assoc]

/-- Bits behind the last place do not change where the number belongs. -/
theorem Kept.targetExponent {m : Nat} {e : Int} (kept : Kept m e) (positive : 0 < m) (k : Nat) :
    Format.binary64.targetExponent (Float.Model.totalExponent (2 ^ k * m) (e - k)) = e := by
  obtain ⟨short, least, -, full⟩ := kept
  have upper := (Nat.log2_lt (k := 53) (Nat.ne_of_gt positive)).mpr short
  have lower := Nat.le_log2 (k := 52) (Nat.ne_of_gt positive)
  have target : Format.binary64.targetExponent (m.log2 + 1 + e) = max (m.log2 + 1 + e - 53) (-1074) := rfl
  have total : Float.Model.totalExponent (2 ^ k * m) (e - k) = m.log2 + 1 + e := by
    rw [Float.Model.totalExponent, log2_two_pow_mul positive]
    omega
  rw [total, target]
  omega

theorem shiftToTargetExponent_exact {m : Nat} {e : Int} (positive : 0 < m) (kept : Kept m e) (k : Nat) :
    shiftToTargetExponent Format.binary64 (2 ^ k * m) (e - k) .exact = (⟨m, false, false⟩, e) := by
  have amount : (e - (e - k)).toNat = k := by omega
  have back : e - k + k = e := by omega
  simp only [shiftToTargetExponent, kept.targetExponent positive, shiftToExponent, amount, back]
  exact congrArg (·, e) (shiftRight_exact m k)

/-- A number that the bits can keep is not rounded. -/
theorem roundWithAccuracy_exact (s : Sign) {m : Nat} {e : Int} (positive : 0 < m) (kept : Kept m e) (k : Nat) :
    roundWithAccuracy Format.binary64 s (2 ^ k * m) (e - k) .exact = .finite s m e positive := by
  have again := shiftToTargetExponent_exact positive kept 0
  rw [Nat.pow_zero, Nat.one_mul, Int.natCast_zero, Int.sub_zero] at again
  have mantissa : (⟨m, false, false⟩ : ExtendedMantissa).roundedMantissa = m := rfl
  -- Rounding shifts twice; the second time there is nothing to shift.
  unfold roundWithAccuracy
  simp only [shiftToTargetExponent_exact positive kept k, mantissa, again, Nat.ne_of_gt positive, ↓reduceDIte]

/-- Multiplying by one, of either sign, changes the sign only. -/
theorem mul_unit {s t : Sign} {m : Nat} {e : Int} (positive : 0 < m) (kept : Kept m e) (unit : 0 < 2 ^ 52) :
    mul Format.binary64 (.finite s (2 ^ 52) (-52) unit) (.finite t m e positive) = .finite (s * t) m e positive ∧
      mul Format.binary64 (.finite t m e positive) (.finite s (2 ^ 52) (-52) unit) = .finite (t * s) m e positive := by
  have left : -52 + e = e - (52 : Nat) := by omega
  have right : e + -52 = e - (52 : Nat) := by omega
  unfold UnpackedFloat.mul
  simp only
  rw [left, right, Nat.mul_comm m]
  exact ⟨roundWithAccuracy_exact _ positive kept 52, roundWithAccuracy_exact _ positive kept 52⟩

/-! ## Signs -/

/-- Exponent and mantissa do not depend on the highest bit. -/
theorem fields_of_magnitude {b' : BitVec 64} (h : b'.toNat % 2 ^ 63 = b.toNat % 2 ^ 63) :
    @unpackExponent Format.binary64 b' = @unpackExponent Format.binary64 b ∧
      @unpackMantissa Format.binary64 b' = @unpackMantissa Format.binary64 b := by
  constructor <;> apply BitVec.eq_of_toNat_eq
  · rw [toNat_unpackExponent, toNat_unpackExponent]
    omega
  · rw [toNat_unpackMantissa, toNat_unpackMantissa]
    omega

/-- A value with another sign. -/
def withSign (g : Sign → Sign) : UnpackedFloat → UnpackedFloat
  | .notANumber => .notANumber
  | .infinity s => .infinity (g s)
  | .zero s => .zero (g s)
  | .finite s m e positive => .finite (g s) m e positive

/-- Bits that differ in the highest bit stand for values that differ in their signs. -/
theorem unpack_of_magnitude {b' : BitVec 64} {g : Sign → Sign} (magnitude : b'.toNat % 2 ^ 63 = b.toNat % 2 ^ 63)
    (sign : Sign.ofBitVec (@unpackSign Format.binary64 b') = g (Sign.ofBitVec (@unpackSign Format.binary64 b))) :
    UnpackedFloat.unpack Format.binary64 b' = withSign g (UnpackedFloat.unpack Format.binary64 b) := by
  obtain ⟨exponent, mantissa⟩ := fields_of_magnitude magnitude
  unfold UnpackedFloat.unpack
  simp only [mantissa, exponent, sign]
  split
  · split <;> rfl
  · split
    · split <;> rfl
    · rfl

theorem ofBitVec_xor (s : BitVec 1) : Sign.ofBitVec (s ^^^ 1#1) = -Sign.ofBitVec s := by
  have either : s = 0#1 ∨ s = 1#1 := by
    revert s
    decide
  rcases either with rfl | rfl <;> rfl

/-- Changing the highest bit changes the sign. -/
theorem unpack_xor (b : BitVec 64) :
    UnpackedFloat.unpack Format.binary64 (b ^^^ 0x8000000000000000#64) =
      (UnpackedFloat.unpack Format.binary64 b).neg := by
  have top : (0x8000000000000000#64).toNat = 2 ^ 63 := rfl
  have magnitude : (b ^^^ 0x8000000000000000#64).toNat % 2 ^ 63 = b.toNat % 2 ^ 63 := by
    rw [BitVec.toNat_xor, top, Nat.xor_mod_two_pow, Nat.mod_self, Nat.xor_zero]
  have sign : @unpackSign Format.binary64 (b ^^^ 0x8000000000000000#64) =
      @unpackSign Format.binary64 b ^^^ 1#1 := by
    apply BitVec.eq_of_toNat_eq
    rw [toNat_unpackSign, BitVec.toNat_xor, BitVec.toNat_xor, toNat_unpackSign, top, Nat.xor_div_two_pow]
    rfl
  rw [unpack_of_magnitude (g := (-·)) magnitude (by rw [sign, ofBitVec_xor])]
  cases UnpackedFloat.unpack Format.binary64 b <;> rfl

/-- Without the highest bit the sign is positive. -/
theorem unpack_and (b : BitVec 64) :
    UnpackedFloat.unpack Format.binary64 (b &&& 0x7FFFFFFFFFFFFFFF#64) =
      (UnpackedFloat.unpack Format.binary64 b).abs := by
  have whole : (b &&& 0x7FFFFFFFFFFFFFFF#64).toNat = b.toNat % 2 ^ 63 := by
    rw [BitVec.toNat_and]
    exact Nat.and_two_pow_sub_one_eq_mod b.toNat 63
  have sign : @unpackSign Format.binary64 (b &&& 0x7FFFFFFFFFFFFFFF#64) = 0#1 := by
    apply BitVec.eq_of_toNat_eq
    rw [toNat_unpackSign, whole]
    exact Nat.div_eq_of_lt (Nat.mod_lt _ (Nat.two_pow_pos 63))
  have magnitude : (b &&& 0x7FFFFFFFFFFFFFFF#64).toNat % 2 ^ 63 = b.toNat % 2 ^ 63 := by rw [whole, Nat.mod_mod]
  rw [unpack_of_magnitude (g := fun _ => .positive) magnitude (by rw [sign]; rfl)]
  cases UnpackedFloat.unpack Format.binary64 b <;> rfl

end AnalogCircuit.Binary64
