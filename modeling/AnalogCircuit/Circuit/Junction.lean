import AnalogCircuit.Expr.Build
import AnalogCircuit.Netlist.Basic
/-!
# Semiconductor junctions

The current through a junction grows exponentially with its voltage. Above a knee it goes on along the
tangent at the knee, so that a large forward step of an iteration does not overflow. Diodes are single
junctions; a bipolar transistor is two junctions and the current that one induces in the other.
-/

namespace AnalogCircuit

variable {α : Type} [Scalar α]

/-- The voltage to which charge carriers are lifted by heat at room temperature. -/
def thermalVoltage : α := 0.0258

/-- The current through a junction at the voltage `v`: the exponential law of `saturation` and
`emission` up to `knee`, and the tangent at `knee` above it. -/
def junctionCurrent (v : Expr α) (saturation emission knee : α) : Expr α :=
  let growth := Scalar.unary .exp (knee / emission)
  let current := saturation * (growth - 1)
  let conductance := saturation / emission * growth
  let exponential := Expr.mkNum saturation * (Expr.mkExp (v / .mkNum emission) - .mkNum 1)
  let tangent := Expr.mkNum current + .mkNum conductance * (v - .mkNum knee)
  .mkSelect (.mkCompare .gt v (.mkNum knee)) tangent exponential

/-! ## Diodes -/

/-- The parameters of a diode. -/
structure Diode (α : Type) where
  saturation : α
  ideality : α
  knee : α

namespace Diode

/-- A silicon diode. -/
def standard : Diode α := ⟨1e-14, 1, 0.7⟩

/-- The diode of a model; what the model does not give is as in the standard diode. -/
def ofModel (m : Netlist.Model α) : Diode α where
  saturation := (m.setting? "is").getD standard.saturation
  ideality := (m.setting? "n").getD standard.ideality
  knee := (m.setting? "vf").getD standard.knee

/-- The voltage over which the current grows by a factor of e. -/
def emission (d : Diode α) : α := d.ideality * thermalVoltage

/-- The current at a voltage. -/
def current (d : Diode α) (v : Expr α) : Expr α :=
  junctionCurrent v d.saturation d.emission d.knee

end Diode

/-! ## Bipolar transistors -/

/-- The type of a bipolar transistor. -/
inductive Polarity where
  | npn
  | pnp
deriving DecidableEq, Repr

/-- The sign of all voltages and currents. -/
def Polarity.sign : Polarity → α
  | npn => 1
  | pnp => -1

/-- The parameters of a bipolar transistor. -/
structure Transistor (α : Type) where
  polarity : Polarity
  forwardGain : α
  reverseGain : α
  /-- The saturation current of the junction between base and emitter. -/
  emitterSaturation : α
  /-- The saturation current of the junction between base and collector. -/
  collectorSaturation : α
  ideality : α
  /-- The Early voltage; the effect is off unless it is positive. -/
  early : α

namespace Transistor

/-- The standard transistor of a type. -/
def standard (polarity : Polarity) : Transistor α := ⟨polarity, 100.0, 1, 1e-14, 1e-14, 1, 100.0⟩

/-- The transistor of a model; what the model does not give is as in the standard transistor. -/
def ofModel (m : Netlist.Model α) : Transistor α :=
  let base : Transistor α := standard (if m.kind = .pnp then .pnp else .npn)
  { base with
    forwardGain := (m.setting? "bf").getD base.forwardGain
    reverseGain := (m.setting? "br").getD base.reverseGain
    emitterSaturation := (m.setting? "is").getD base.emitterSaturation
    collectorSaturation := (m.setting? "is").getD base.collectorSaturation
    ideality := (m.setting? "n").getD base.ideality
    early := (m.setting? "va").getD base.early }

/-- The voltage over which the currents grow by a factor of e. -/
def emission (q : Transistor α) : α := q.ideality * thermalVoltage

/-- The voltage at which the exponential laws give way to their tangents. -/
def knee : α := 0.8

/-- The currents into collector and base, given the voltages from base to emitter and from base to
collector. -/
def currents (q : Transistor α) (vbe vbc : Expr α) : Expr α × Expr α :=
  let sign : Expr α := .mkNum q.polarity.sign
  let forward := junctionCurrent (sign * vbe) q.emitterSaturation q.emission knee
  let reverse := junctionCurrent (sign * vbc) q.collectorSaturation q.emission knee
  let plain := .mkNum (q.forwardGain / (q.forwardGain + 1)) * forward
  let transport :=
    if Scalar.lt 0 q.early then
      plain * (.mkNum 1 + sign * (vbe - vbc) / .mkNum q.early)
    else plain
  let collector :=
    sign * (transport - .mkNum ((q.reverseGain + 1) / q.reverseGain) * reverse)
  let base :=
    sign * (forward / .mkNum (q.forwardGain + 1) + reverse / .mkNum (q.reverseGain + 1))
  (collector, base)

end Transistor

end AnalogCircuit
