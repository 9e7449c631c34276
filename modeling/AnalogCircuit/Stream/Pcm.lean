import AnalogCircuit.Scalar.Basic
/-!
# Samples as bytes

Audio comes and goes as a sequence of numbers in single precision, each in four bytes of which the first
is the least significant one.
-/

namespace AnalogCircuit

/-- A number in single precision, as its bits. -/
structure Pcm where
  bits : UInt32
deriving DecidableEq, Repr

namespace Pcm

/-- The number zero. -/
def silence : Pcm := ⟨0⟩

/-- The number in four bytes. -/
def ofBytes (a b c d : UInt8) : Pcm :=
  ⟨a.toUInt32 ||| b.toUInt32 <<< 8 ||| c.toUInt32 <<< 16 ||| d.toUInt32 <<< 24⟩

/-- The four bytes of a number. -/
def toBytes (p : Pcm) : List UInt8 :=
  [p.bits.toUInt8, (p.bits >>> 8).toUInt8, (p.bits >>> 16).toUInt8, (p.bits >>> 24).toUInt8]

/-- The numbers in a sequence of bytes, and the bytes of the last one if it is incomplete. -/
def ofList : List UInt8 → List Pcm × List UInt8
  | a :: b :: c :: d :: rest =>
    let (samples, incomplete) := ofList rest
    (ofBytes a b c d :: samples, incomplete)
  | incomplete => ([], incomplete)

theorem length_ofList (bytes : List UInt8) :
    4 * (ofList bytes).1.length + (ofList bytes).2.length = bytes.length := by
  fun_induction ofList bytes with
  | case1 a b c d rest samples incomplete e ih =>
    rw [e] at ih
    simp only [List.length_cons] at *
    omega
  | case2 => simp

end Pcm

/-- A number system into which samples are taken and out of which they are rounded. -/
class PcmScalar (α : Type) extends Scalar α where
  ofPcm : Pcm → α
  /-- The nearest number in single precision. -/
  toPcm : α → Pcm

end AnalogCircuit
