import AnalogCircuit.Proofs.Binary64
import AnalogCircuit.Proofs.Signs
/-!
# Doubles as numbers with signs

Of the finite doubles, negative zero apart, zero and one are neutral, and a negative one is its magnitude with the
other sign: in its value, in its text, and in products with minus one. Nothing is rounded in any of this.
-/

namespace AnalogCircuit.Double

open Float.Model (Format UnpackedFloat)
open Float.Model.UnpackedFloat (Sign)
open Binary64

instance : Std.TransCmp (Scalar.order (α := Double)) := inferInstanceAs (Std.TransCmp (compareOn place))

instance : Std.LawfulEqCmp (Scalar.order (α := Double)) where
  compare_self := order_eq_iff.mpr rfl
  eq_of_compare := order_eq_iff.mp

/-! ## Values -/

/-- What the bits of a double stand for. -/
def value (x : Double) : UnpackedFloat := UnpackedFloat.unpack Format.binary64 x.bits.toBitVec

variable {x y z : Double}

/-- The value determines the bits. -/
theorem pack_value (number : x.value ≠ .notANumber) : (Float.Model.pack x.value).toBits = x.bits :=
  congrArg UInt64.ofBitVec (pack_unpack_of_ne number)

/-- A value with a mantissa is a number. -/
theorem number_of_value {s : Sign} {m : Nat} {e : Int} {positive : 0 < m}
    (value : x.value = .finite s m e positive) : x.value ≠ .notANumber := by
  rw [value]
  nofun

theorem eq_of_value (number : x.value ≠ .notANumber) (same : x.value = y.value) : x = y := by
  have bits : x.bits = y.bits := by
    rw [← pack_value number, same, pack_value (same ▸ number)]
  cases x
  cases y
  exact congrArg mk bits

theorem unpack_pack_value (x : Double) : (Float.Model.pack x.value).unpack = x.value := by
  by_cases number : x.value = .notANumber
  · rw [number]
    rfl
  · rw [Float.Model.unpack, pack_value number]
    rfl

/-- The number for calculation has the value of the double. -/
theorem unpack_toFloat (x : Double) : x.toFloat.toModel.unpack = x.value := unpack_pack_value x

theorem toBits_toFloat (number : x.value ≠ .notANumber) : x.toFloat.toBits = x.bits := pack_value number

/-! ## Arithmetic -/

/-- An operation whose result is the value of a double yields this double. -/
theorem lift₂_eq {f : Float → Float → Float} (number : z.value ≠ .notANumber)
    (h : (f x.toFloat y.toFloat).toModel = Float.Model.pack z.value) : lift₂ f x y = z := by
  have isNaN : (f x.toFloat y.toFloat).isNaN = false := by
    rw [Float.isNaN, h, Float.Model.isNaN, unpack_pack_value]
    exact Bool.eq_false_iff.mpr (mt UnpackedFloat.isNaN_iff.mp number)
  have bits : (f x.toFloat y.toFloat).toBits = z.bits := by
    rw [Float.toBits, h, pack_value number]
  simp only [lift₂, isNaN, bits, Bool.not_false, if_true]

theorem add_eq (number : z.value ≠ .notANumber) (h : UnpackedFloat.add Format.binary64 x.value y.value = z.value) :
    x + y = z := by
  refine lift₂_eq number ?_
  show Float.Model.pack (UnpackedFloat.add _ x.toFloat.toModel.unpack y.toFloat.toModel.unpack) = _
  rw [unpack_toFloat, unpack_toFloat, h]

theorem mul_eq (number : z.value ≠ .notANumber) (h : UnpackedFloat.mul Format.binary64 x.value y.value = z.value) :
    x * y = z := by
  refine lift₂_eq number ?_
  show Float.Model.pack (UnpackedFloat.mul _ x.toFloat.toModel.unpack y.toFloat.toModel.unpack) = _
  rw [unpack_toFloat, unpack_toFloat, h]

theorem eq_eq (x y : Double) : Double.eq x y = UnpackedFloat.beq x.value y.value := by
  show UnpackedFloat.beq x.toFloat.toModel.unpack y.toFloat.toModel.unpack = _
  rw [unpack_toFloat, unpack_toFloat]

theorem lt_eq (x y : Double) : Double.lt x y = UnpackedFloat.lt x.value y.value := by
  rw [← unpack_toFloat, ← unpack_toFloat, Bool.eq_iff_iff]
  simp only [Double.lt, decide_eq_true_eq]
  show decide (x.toFloat.toModel < y.toFloat.toModel) = true ↔ _
  exact decide_eq_true_iff

theorem isFinite_eq (x : Double) : x.isFinite = x.value.isFinite := by
  show x.toFloat.toModel.unpack.isFinite = _
  rw [unpack_toFloat]

theorem value_zero : (0 : Double).value = .zero .positive := rfl

theorem value_minusZero : (-0 : Double).value = .zero .negative := rfl

theorem value_one : (1 : Double).value = .finite .positive (2 ^ 52) (-52) (by decide) := rfl

theorem value_minusOne : (-1 : Double).value = .finite .negative (2 ^ 52) (-52) (by decide) := rfl

theorem value_neg (x : Double) : (-x).value = x.value.neg := unpack_xor x.bits.toBitVec

theorem value_abs (x : Double) : (abs x).value = x.value.abs := unpack_and x.bits.toBitVec

/-! ## Plain doubles -/

/-- A plain double is zero or has a sign, a mantissa and an exponent. -/
inductive PlainValue (v : Double) : Prop
  | zero (same : v = 0)
  | finite {s : Sign} {m : Nat} {e : Int} {positive : 0 < m} (value : v.value = .finite s m e positive)
      (kept : Kept m e)

variable {v : Double}

theorem plainValue (plain : Scalar.IsPlain v) : PlainValue v := by
  have finite : v.value.isFinite = true := isFinite_eq v ▸ plain.finite
  have unsigned : Double.eq v 0 = true → v = 0 := plain.unsigned
  rw [eq_eq, value_zero] at unsigned
  cases value : v.value with
  | notANumber =>
    rw [value] at finite
    cases finite
  | infinity s =>
    rw [value] at finite
    cases finite
  | zero s =>
    rw [value] at unsigned
    exact .zero (unsigned rfl)
  | finite s m e positive => exact .finite value (finite_of_unpack value).2

theorem PlainValue.number (h : PlainValue v) : v.value ≠ .notANumber := by
  cases h with
  | zero same =>
    subst same
    nofun
  | finite value _ => exact number_of_value value

/-- A double with a mantissa is plain. -/
theorem isPlain_of_finite {s : Sign} {m : Nat} {e : Int} {positive : 0 < m}
    (value : v.value = .finite s m e positive) : Scalar.IsPlain v := by
  refine ⟨?_, fun zero => ?_⟩
  · show Double.isFinite v = true
    rw [isFinite_eq, value]
    rfl
  · have zero : Double.eq v 0 = true := zero
    rw [eq_eq, value, value_zero] at zero
    cases s <;> cases zero

/-- The plain doubles are the finite ones without negative zero. -/
theorem isPlain_iff : Scalar.IsPlain v ↔ v.isFinite = true ∧ v ≠ -0 := by
  constructor
  · intro plain
    refine ⟨plain.finite, ?_⟩
    rintro rfl
    cases plain.unsigned rfl
  · rintro ⟨finite, signed⟩
    refine ⟨finite, fun zero => ?_⟩
    have zero : Double.eq v 0 = true := zero
    rw [eq_eq, value_zero, UnpackedFloat.beq_iff_ne_notANumber_and_eq] at zero
    obtain ⟨number, -, same | ⟨-, other⟩ | ⟨minus, -⟩⟩ := zero
    · exact eq_of_value number (same.trans value_zero.symm)
    · cases other
    · exact absurd (eq_of_value number (minus.trans value_minusZero.symm)) signed

theorem isNeutral (plain : Scalar.IsPlain v) : Scalar.IsNeutral v := by
  have h := plainValue plain
  refine ⟨add_eq h.number ?_, add_eq h.number ?_, mul_eq h.number ?_⟩
  all_goals
    cases h with
    | zero same =>
      subst same
      rfl
    | @finite s m e positive value kept =>
      rw [value]
      first
        | rfl
        | rw [value_one, (mul_unit positive kept _).1]
          cases s <;> rfl

theorem mul_one (plain : Scalar.IsPlain v) : v * 1 = v := by
  have h := plainValue plain
  refine mul_eq h.number ?_
  cases h with
  | zero same =>
    subst same
    rfl
  | @finite s m e positive value kept =>
    rw [value, value_one, (mul_unit positive kept _).2]
    cases s <;> rfl

/-- Numeric equality with a double that has a mantissa is equality. -/
theorem eq_of_eq {s : Sign} {m : Nat} {e : Int} {positive : 0 < m} (value : x.value = .finite s m e positive)
    (same : Double.eq v x = true) : v = x := by
  rw [eq_eq, value, UnpackedFloat.beq_iff_ne_notANumber_and_eq] at same
  obtain ⟨number, -, equal | ⟨-, zero⟩ | ⟨-, zero⟩⟩ := same
  · exact eq_of_value number (equal.trans value.symm)
  · cases zero
  · cases zero

/-- A plain double is negative if its sign is. -/
theorem value_of_lt (plain : Scalar.IsPlain v) (negative : Double.lt v 0 = true) :
    ∃ m e positive, v.value = .finite .negative m e positive := by
  rw [lt_eq, value_zero] at negative
  cases plainValue plain with
  | zero same =>
    subst same
    cases negative
  | @finite s m e positive value _ =>
    rw [value] at negative
    cases s with
    | negative => exact ⟨m, e, positive, value⟩
    | positive => cases negative

/-! ## Texts -/

/-- The magnitude of a double does not depend on its sign. -/
theorem ofFloat_neg (number : x.value ≠ .notANumber) :
    Numeral.Binary.ofFloat (-x).toFloat = Numeral.Binary.ofFloat x.toFloat := by
  have number' : (-x).value ≠ .notANumber := by
    rw [value_neg]
    generalize x.value = u at number ⊢
    cases u <;> first | exact absurd rfl number | nofun
  have magnitude : (-x).bits.toNat % 2 ^ 63 = x.bits.toNat % 2 ^ 63 := by
    show (x.bits ^^^ 0x8000000000000000).toNat % 2 ^ 63 = _
    rw [UInt64.toNat_xor, Nat.xor_mod_two_pow]
    exact Nat.xor_zero _
  -- Exponent and mantissa are read off the bits below the sign.
  have exponent (b : UInt64) : ((b >>> 52) &&& 0x7FF).toNat = b.toNat % 2 ^ 63 / 2 ^ 52 := by
    rw [UInt64.toNat_and, UInt64.toNat_shiftRight]
    show b.toNat >>> 52 &&& 2 ^ 11 - 1 = _
    rw [Nat.and_two_pow_sub_one_eq_mod, Nat.shiftRight_eq_div_pow]
    omega
  have mantissa (b : UInt64) : (b &&& 0xFFFFFFFFFFFFF).toNat = b.toNat % 2 ^ 63 % 2 ^ 52 := by
    rw [UInt64.toNat_and]
    show b.toNat &&& 2 ^ 52 - 1 = _
    rw [Nat.and_two_pow_sub_one_eq_mod]
    omega
  unfold Numeral.Binary.ofFloat
  simp only [toBits_toFloat number, toBits_toFloat number', exponent, mantissa, magnitude]

theorem isNegative_of_value {s : Sign} {m : Nat} {e : Int} {positive : 0 < m}
    (value : v.value = .finite s m e positive) : Numeral.isNegative v.toFloat = (s == .negative) := by
  have sign : 2 ^ 63 ≤ v.bits.toNat ↔ s = .negative := le_toNat_iff value
  rw [Numeral.isNegative, toBits_toFloat (number_of_value value), Bool.eq_iff_iff, decide_eq_true_iff,
    UInt64.le_iff_toNat_le]
  refine sign.trans ?_
  cases s with
  | negative => exact ⟨fun _ => rfl, fun _ => rfl⟩
  | positive => exact ⟨nofun, nofun⟩

/-- A number with a mantissa is written with a sign and the shortest digits. -/
theorem plain_of_value {s : Sign} {m : Nat} {e : Int} {positive : 0 < m} (value : x.value = .finite s m e positive) :
    Numeral.plain x.toFloat = Numeral.signOf x.toFloat ++ (Numeral.Binary.ofFloat x.toFloat).shortest.positional := by
  have isNaN : x.toFloat.isNaN = false := by
    show x.toFloat.toModel.unpack.isNaN = false
    rw [unpack_toFloat, value]
    rfl
  have isInf : x.toFloat.isInf = false := by
    show x.toFloat.toModel.unpack.isInf = false
    rw [unpack_toFloat, value]
    rfl
  have nonzero : (x.toFloat == 0) = false := by
    show UnpackedFloat.beq x.toFloat.toModel.unpack (0 : Float).toModel.unpack = false
    rw [unpack_toFloat, value]
    cases s <;> rfl
  simp only [Numeral.plain, isNaN, isInf, nonzero, Bool.false_eq_true, if_false]

/-- A negative double is written as its magnitude behind a sign. -/
theorem text_of_negative {m : Nat} {e : Int} {positive : 0 < m} (value : v.value = .finite .negative m e positive) :
    Numeral.plain v.toFloat = '-' :: Numeral.plain (-v).toFloat := by
  have value' : (-v).value = .finite .positive m e positive := by
    rw [value_neg, value]
    rfl
  have sign : Numeral.signOf v.toFloat = ['-'] := by
    rw [Numeral.signOf, isNegative_of_value value]
    rfl
  have unsigned : Numeral.signOf (-v).toFloat = [] := by
    rw [Numeral.signOf, isNegative_of_value value']
    rfl
  rw [plain_of_value value, plain_of_value value', ofFloat_neg (number_of_value value), sign, unsigned]
  rfl

/-! ## The laws -/

theorem isNegated (plain : Scalar.IsPlain v) (negative : Double.lt v 0 = true) : Scalar.IsNegated v := by
  obtain ⟨m, e, positive, value⟩ := value_of_lt plain negative
  have magnitude : (-v).value = .finite .positive m e positive := by
    rw [value_neg, value]
    rfl
  have number : v.value ≠ .notANumber := (plainValue plain).number
  have number' : (-v).value ≠ .notANumber := number_of_value magnitude
  have kept : Kept m e := by
    cases plainValue plain with
    | zero same =>
      subst same
      cases value
    | finite value' kept =>
      cases value.symm.trans value'
      exact kept
  refine ⟨isPlain_of_finite magnitude, ?_, ?_, ?_, ?_, ?_, ?_, ?_, text_of_negative value⟩
  · show Double.lt (-v) 0 = false
    rw [lt_eq, magnitude]
    rfl
  · show Double.eq (-v) 0 = false
    rw [eq_eq, magnitude]
    rfl
  · show Double.eq v 0 = false
    rw [eq_eq, value]
    rfl
  · show Double.eq v 1 = false
    rw [eq_eq, value]
    rfl
  · refine (eq_of_value number ?_).symm
    rw [value_neg, magnitude, value]
    rfl
  · refine mul_eq number ?_
    rw [value_minusOne, magnitude, (mul_unit positive kept _).1, value]
    rfl
  · refine (eq_of_value number' ?_).symm
    show (-v).value = (Double.abs v).value
    rw [value_abs, magnitude, value]
    rfl

theorem abs_of_nonnegative (plain : Scalar.IsPlain v) (nonnegative : Double.lt v 0 = false) : Double.abs v = v := by
  cases plainValue plain with
  | zero same =>
    subst same
    rfl
  | @finite s m e positive value _ =>
    rw [lt_eq, value, value_zero] at nonnegative
    cases s with
    | negative => cases nonnegative
    | positive =>
      refine (eq_of_value (number_of_value value) ?_).symm
      rw [value_abs, value]
      rfl

theorem isPlain_one : Scalar.IsPlain (1 : Double) := isPlain_of_finite value_one

instance : Signed Double where
  isZero_zero := rfl
  isOne_one := rfl
  isZero_one := rfl
  isNeutral_one := isNeutral isPlain_one
  isNeutral := isNeutral
  mul_one := mul_one
  eq_of_isOne := eq_of_eq value_one
  eq_of_eq_minusOne := eq_of_eq value_minusOne
  isPlain_minusOne := isPlain_of_finite value_minusOne
  isNegated := isNegated
  abs_of_nonnegative := abs_of_nonnegative

end AnalogCircuit.Double
