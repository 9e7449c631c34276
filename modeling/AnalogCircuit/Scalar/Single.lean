import AnalogCircuit.Scalar.Double
import AnalogCircuit.Stream.Pcm
/-!
# Doubles and single precision

Every number in single precision is a double; a double is rounded to the nearest number in single
precision. NaN keeps its sign and as much of the other bits as there is room for.
-/

namespace AnalogCircuit

/-- Sign and further bits of NaN in double precision. -/
def Pcm.widenNaN (p : Pcm) : Double :=
  let sign : UInt64 := p.bits.toUInt64 >>> 31
  let rest : UInt64 := p.bits.toUInt64 &&& 0x7FFFFF
  ⟨sign <<< 63 ||| rest <<< 29 ||| Double.nan.bits⟩

/-- Sign and further bits of NaN in single precision. -/
def Double.narrowNaN (x : Double) : Pcm :=
  let sign : UInt64 := x.bits >>> 63
  let rest : UInt64 := x.bits >>> 29 &&& 0x7FFFFF
  ⟨(sign <<< 31 ||| rest).toUInt32 ||| 0x7FC00000⟩

instance : PcmScalar Double where
  ofPcm p :=
    let x := (Float32.ofBits p.bits).toFloat
    if x.isNaN then p.widenNaN else .ofFloat x
  toPcm x := if x.isNaN then x.narrowNaN else ⟨x.toFloat.toFloat32.toBits⟩

end AnalogCircuit
