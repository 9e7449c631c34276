import AnalogCircuit.Proofs.Doubles
import AnalogCircuit.Numeral.Literal
/-!
# Doubles without a minus sign

A decimal without a sign becomes a double without one, and so does every product of such doubles. In particular it is no
negative zero, so adding it to zero and multiplying it by one leave its bits as they are.
-/

namespace AnalogCircuit.Binary64

open Float.Model (Format UnpackedFloat)
open Float.Model.UnpackedFloat

/-! ## Values without a minus sign -/

/-- The value has no minus sign; what is not a number has no sign at all. -/
inductive Unsigned : UnpackedFloat → Prop
  | notANumber : Unsigned .notANumber
  | infinity : Unsigned (.infinity .positive)
  | zero : Unsigned (.zero .positive)
  | finite {m : Nat} {e : Int} (positive : 0 < m) : Unsigned (.finite .positive m e positive)

variable {u w : UnpackedFloat}

theorem unsigned_roundWithAccuracy (m : Nat) (e : Int) (accuracy : Accuracy) :
    Unsigned (roundWithAccuracy Format.binary64 .positive m e accuracy) := by
  unfold roundWithAccuracy
  dsimp only
  split
  · exact .zero
  · exact .finite _

theorem Unsigned.mul (hu : Unsigned u) (hw : Unsigned w) : Unsigned (UnpackedFloat.mul Format.binary64 u w) := by
  cases hu <;> cases hw <;>
    first | exact .notANumber | exact .infinity | exact .zero | exact unsigned_roundWithAccuracy ..

theorem Unsigned.div (hu : Unsigned u) (hw : Unsigned w) : Unsigned (UnpackedFloat.div Format.binary64 u w) := by
  cases hu <;> cases hw <;>
    first | exact .notANumber | exact .infinity | exact .zero | exact unsigned_roundWithAccuracy ..

theorem unsigned_ofScientific (m : Nat) (e : Int) : Unsigned (UnpackedFloat.ofScientific Format.binary64 m e) := by
  unfold UnpackedFloat.ofScientific
  split
  · exact .zero
  split
  · exact .infinity
  split
  · exact .zero
  split
  · exact (Unsigned.finite _).mul (.finite _)
  · exact (Unsigned.finite _).div (.finite _)

theorem unsigned_ofNat (n : Nat) : Unsigned (UnpackedFloat.ofNat Format.binary64 n) := by
  unfold UnpackedFloat.ofNat UnpackedFloat.ofInt UnpackedFloat.normalize
  split
  · next negative => exact absurd (compare_lt_iff_lt.mp negative) (by omega)
  · exact .zero
  · exact unsigned_roundWithAccuracy ..

/-- Bits without the highest one have no minus sign. -/
theorem unsigned_unpack {b : BitVec 64} (sign : @unpackSign Format.binary64 b = 0#1) :
    Unsigned (UnpackedFloat.unpack Format.binary64 b) := by
  unfold UnpackedFloat.unpack
  simp only [sign]
  split
  · split
    · exact .infinity
    · exact .notANumber
  split
  · split
    · exact .zero
    · exact .finite _
  · exact .finite _

theorem Unsigned.unpackSign_pack (h : Unsigned u) :
    @unpackSign Format.binary64 (UnpackedFloat.pack Format.binary64 u) = 0#1 := by
  cases h with
  | notANumber | infinity | zero => exact unpackSign_packComponents ..
  | finite positive =>
    unfold UnpackedFloat.pack
    dsimp only
    split
    · exact unpackSign_packComponents ..
    split <;> exact unpackSign_packComponents ..

theorem Unsigned.pack (h : Unsigned u) : Unsigned (Float.Model.pack u).unpack := unsigned_unpack h.unpackSign_pack

end AnalogCircuit.Binary64

namespace AnalogCircuit.Double

open Float.Model (Format UnpackedFloat)
open Binary64

/-! ## Doubles without a minus sign -/

theorem unsigned_powersOfTen {e : Nat} (h : e < Float.exactlyRepresentablePowersOfTen.size) :
    Unsigned Float.exactlyRepresentablePowersOfTen[e].toModel.unpack := by
  have all : ∀ x ∈ Float.exactlyRepresentablePowersOfTen.toList,
      @UnpackedFloat.unpackSign Format.binary64 x.toModel.toBits.toBitVec = 0#1 := by decide +kernel
  exact unsigned_unpack (all _ (Array.getElem_mem_toList h))

theorem unsigned_floatOfScientific (m : Nat) (s : Bool) (e : Nat) :
    Unsigned (Float.ofScientific m s e).toModel.unpack := by
  unfold Float.ofScientific
  split
  · have small : Unsigned (m.toUInt64.toFloat).toModel.unpack := (unsigned_ofNat _).pack
    dsimp only
    split
    · exact (small.div (unsigned_powersOfTen _)).pack
    · exact (small.mul (unsigned_powersOfTen _)).pack
  · exact (unsigned_ofScientific _ _).pack

variable {v w : Double}

theorem unsigned_ofFloat {x : Float} (h : Unsigned x.toModel.unpack) : Unsigned (ofFloat x).value := by
  unfold ofFloat
  split
  · exact .notANumber
  · exact h

theorem unsigned_ofDecimal (digits : Nat) (exponent : Int) : Unsigned (ofDecimal digits exponent).value := by
  refine unsigned_ofFloat ?_
  split
  · exact .zero
  dsimp only
  split
  · exact .infinity
  split
  · exact .zero
  · exact unsigned_floatOfScientific ..

theorem unsigned_mul (hv : Unsigned v.value) (hw : Unsigned w.value) : Unsigned (v * w).value := by
  have product : Unsigned (Float.mul v.toFloat w.toFloat).toModel.unpack := by
    refine Unsigned.pack (.mul ?_ ?_)
    · rwa [unpack_toFloat]
    · rwa [unpack_toFloat]
  show Unsigned (lift₂ Float.mul v w).value
  unfold lift₂
  dsimp only
  split
  · exact product
  split
  · exact hv
  split
  · exact hw
  · exact .notANumber

/-- A quantity without a sign has a value without one. -/
theorem unsigned_value {q : Numeral.Quantity} (h : q.negative = false) : Unsigned (q.value : Double).value := by
  unfold Numeral.Quantity.value
  rw [h]
  exact unsigned_mul (unsigned_ofDecimal ..) (unsigned_ofDecimal ..)

/-- A zero without a minus sign is zero itself. -/
theorem eq_zero_of_unsigned (h : Unsigned v.value) (zero : Scalar.isZero v = true) : v = 0 := by
  have zero : Double.eq v 0 = true := zero
  rw [eq_eq, value_zero] at zero
  generalize value : v.value = u at h zero
  cases h with
  | zero => exact eq_of_value (by rw [value]; nofun) (value.trans value_zero.symm)
  | notANumber | infinity | finite => cases zero

/-! ## Neutral elements -/

theorem isNaN_of_value (none : v.value = .notANumber) : v.isNaN = true := by
  have exponent := toNat_unpackExponent v.bits.toBitVec
  have mantissa := toNat_unpackMantissa v.bits.toBitVec
  unfold value UnpackedFloat.unpack at none
  dsimp only at none
  split at none
  · next top =>
    split at none
    · cases none
    next nonzero =>
    have top : (@UnpackedFloat.unpackExponent Format.binary64 v.bits.toBitVec).toNat = 2047 :=
      congrArg BitVec.toNat top
    have nonzero : (@UnpackedFloat.unpackMantissa Format.binary64 v.bits.toBitVec).toNat ≠ 0 :=
      fun zero => nonzero (BitVec.eq_of_toNat_eq zero)
    have magnitude : (v.bits &&& 0x7FFFFFFFFFFFFFFF).toNat = v.bits.toNat % 2 ^ 63 := by
      rw [UInt64.toNat_and]
      exact Nat.and_two_pow_sub_one_eq_mod v.bits.toNat 63
    have same : v.bits.toBitVec.toNat = v.bits.toNat := rfl
    rw [isNaN, decide_eq_true_eq, UInt64.lt_iff_toNat_lt, magnitude]
    show 0x7FF0000000000000 < _
    omega
  · split at none
    · split at none <;> cases none
    · cases none

/-- Adding it to zero leaves every bit. -/
theorem zero_add_of_unsigned (h : Unsigned v.value) : 0 + v = v := by
  generalize value : v.value = u at h
  cases h with
  | zero =>
    obtain rfl : v = 0 := eq_of_value (by rw [value]; nofun) (value.trans value_zero.symm)
    rfl
  | infinity =>
    refine add_eq (by rw [value]; nofun) ?_
    rw [value]
    rfl
  | finite => exact (isNeutral (isPlain_of_finite value)).zero_add
  | notANumber =>
    have none : (Float.add (0 : Double).toFloat v.toFloat).isNaN = true := by
      show (Float.Model.pack (UnpackedFloat.add _ _ v.toFloat.toModel.unpack)).unpack.isNaN = true
      rw [unpack_toFloat v, value]
      rfl
    show lift₂ Float.add 0 v = v
    simp only [lift₂, none, isNaN_of_value value]
    rfl

/-- Multiplying it by one leaves every bit. -/
theorem mul_one_of_unsigned (h : Unsigned v.value) : v * 1 = v := by
  generalize value : v.value = u at h
  cases h with
  | zero =>
    obtain rfl : v = 0 := eq_of_value (by rw [value]; nofun) (value.trans value_zero.symm)
    rfl
  | infinity =>
    refine mul_eq (by rw [value]; nofun) ?_
    rw [value]
    rfl
  | finite => exact mul_one (isPlain_of_finite value)
  | notANumber =>
    have none : (Float.mul v.toFloat (1 : Double).toFloat).isNaN = true := by
      show (Float.Model.pack (UnpackedFloat.mul _ v.toFloat.toModel.unpack _)).unpack.isNaN = true
      rw [unpack_toFloat v, value]
      rfl
    show lift₂ Float.mul v 1 = v
    simp only [lift₂, none, isNaN_of_value value]
    rfl

/-- Without a scale nothing is multiplied. -/
theorem value_of_unscaled {q : Numeral.Quantity} (unsigned : q.negative = false) (unscaled : q.scale = 0) :
    (q.value : Double) = ofDecimal q.magnitude.digits q.magnitude.exponent := by
  unfold Numeral.Quantity.value
  rw [unsigned, unscaled]
  exact mul_one_of_unsigned (unsigned_ofDecimal ..)

end AnalogCircuit.Double
