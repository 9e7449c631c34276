import AnalogCircuit.Assembly
import AnalogCircuit.Circuit.Junction
/-!
# Components

The catalogue of elements. Each states its terminal currents and the equations of its branches; values
are expressions, so they may depend on parameters and on the time. Sources of voltage, inductors and
transformers introduce branch currents, named `i[...]` after the element.
-/

namespace AnalogCircuit

variable {α : Type} [Scalar α]

/-! ## Parameters of the larger components -/

/-- An amplifier with finite gain, an output resistance and a resistance between its inputs. -/
structure Amplifier (α : Type) where
  gain : α
  outputResistance : α
  inputResistance : α

namespace Amplifier

/-- Nearly ideal; the gain is finite so that the numbers stay manageable. -/
def ideal : Amplifier α := ⟨1e9, 0.1, 1e12⟩

/-- The presets that a model may start from, by number. -/
def preset? (number : Int) : Option (Amplifier α) :=
  if number = 741 then some ⟨2e5, 75.0, 2e6⟩
  else if number = 72 then some ⟨2e5, 100.0, 1e12⟩
  else none

/-- The amplifier of a model: its preset, or else the ideal one, with what the model gives. -/
def ofModel (m : Netlist.Model α) : Amplifier α :=
  let base := ((m.setting? "preset").bind (preset? <| Scalar.toInt ·)).getD ideal
  { gain := ((m.setting? "a").orElse fun _ => m.setting? "gain").getD base.gain
    outputResistance := (m.setting? "rout").getD base.outputResistance
    inputResistance := (m.setting? "rin").getD base.inputResistance }

end Amplifier

/-- A resistive track with a tap; both limits keep the two halves from vanishing. -/
structure Potentiometer (α : Type) where
  total : Expr α
  /-- Where the tap stands, from zero to one. -/
  position : Expr α

namespace Potentiometer

/-- The larger of a value and a floor. -/
def atLeast (e : Expr α) (floor : α) : Expr α := .mkCall .max [e, .mkNum floor]

/-- The smaller of a value and a ceiling. -/
def atMost (e : Expr α) (ceiling : α) : Expr α := .mkCall .min [e, .mkNum ceiling]

/-- The total is at least one ohm, and the tap keeps a thousandth away from either end. -/
def limited (total position : Expr α) : Potentiometer α :=
  ⟨atLeast total 1, atMost (atLeast position 0.001) 0.999⟩

/-- The smallest resistance of a half. -/
def floor : α := 0.1

/-- The resistance from the first end to the tap. -/
def upper (p : Potentiometer α) : Expr α := atLeast (p.position * p.total) floor

/-- The resistance from the tap to the second end. -/
def lower (p : Potentiometer α) : Expr α := atLeast ((.mkNum 1 - p.position) * p.total) floor

end Potentiometer

/-! ## The catalogue -/

/-- An input signal and the factor by which it drives a source. -/
structure Drive (α : Type) where
  input : String
  gain : Expr α

/-- What a component is and where it is connected. -/
inductive Device (α : Type) where
  | resistor (a b : Node) (resistance : Expr α)
  | capacitor (a b : Node) (capacitance : Expr α)
  | inductor (a b : Node) (inductance : Expr α)
  | voltageSource (plus minus : Node) (voltage : Expr α) (drive? : Option (Drive α))
  /-- The current flows through the source from `plus` to `minus`. -/
  | currentSource (plus minus : Node) (current : Expr α)
  | diode (anode cathode : Node) (law : Diode α)
  | transistor (collector base emitter : Node) (law : Transistor α)
  | amplifier (out plus minus : Node) (law : Amplifier α)
  | potentiometer (a wiper b : Node) (track : Potentiometer α)
  /-- An ideal transformer; `turns` is the ratio of primary to secondary turns. -/
  | transformer (pa pc sa sc : Node) (turns : Expr α)

/-- A named element of a circuit. -/
structure Component (α : Type) where
  name : String
  device : Device α

namespace Device

/-- The pins and their nodes. -/
def pins : Device α → List (String × Node)
  | resistor a b _ | capacitor a b _ | inductor a b _ | voltageSource a b _ _
  | currentSource a b _ | diode a b _ => [("a", a), ("b", b)]
  | transistor c b e _ => [("c", c), ("b", b), ("e", e)]
  | amplifier out p n _ => [("out", out), ("in+", p), ("in-", n)]
  | potentiometer a w b _ => [("a", a), ("w", w), ("b", b)]
  | transformer pa pc sa sc _ => [("pa", pa), ("pc", pc), ("sa", sa), ("sc", sc)]

/-- The device is driven by an input signal. -/
def isDriven : Device α → Bool
  | voltageSource _ _ _ drive? => drive?.isSome
  | _ => false

/-- The currents of the device are no linear function of its voltages. -/
def isNonlinear : Device α → Bool
  | diode .. | transistor .. => true
  | _ => false

end Device

namespace Component

/-- The terminals. -/
def terminals (c : Component α) : List Terminal :=
  c.device.pins.map fun (pin, node) => ⟨c.name, pin, node⟩

/-- The nodes of the terminals. -/
def nodes (c : Component α) : List Node := c.device.pins.map (·.2)

/-- The same current enters at one pin and leaves at another. -/
def through (name : String) (a b : String × Node) (i : Expr α) : List (Action α) :=
  [.current ⟨name, a.1, a.2⟩ i, .current ⟨name, b.1, b.2⟩ (-i)]

/-- What a component contributes to an assembly once its terminals are connected, given the voltages of
the nodes. -/
def laws (v : Node → Expr α) (c : Component α) : List (Action α) :=
  let through := through c.name
  let current (pin : String) (node : Node) (i : Expr α) : Action α := .current ⟨c.name, pin, node⟩ i
  let branch (suffix : String) : String := "i[" ++ c.name ++ suffix ++ "]"
  match c.device with
  | .resistor a b r => through ("a", a) ("b", b) ((v a - v b) / r)
  | .capacitor a b k => through ("a", a) ("b", b) (k * .mkDerivative (v a - v b) .time)
  | .inductor a b l =>
    let i := Expr.named (branch "")
    .unknown (branch "") :: through ("a", a) ("b", b) i ++
      [.equation (v a - v b) (l * .mkDerivative i .time)]
  | .voltageSource p n e drive? =>
    .unknown (branch "") :: through ("a", p) ("b", n) (.named (branch "")) ++
      match drive? with
      | none => [.equation (v p - v n) e]
      | some d => [.input d.input, .equation (v p - v n) (e + d.gain * .named d.input)]
  | .currentSource p n i => through ("a", p) ("b", n) i
  | .diode a k law => through ("a", a) ("b", k) (law.current (v a - v k))
  | .transistor k b e law =>
    let (ic, ib) := law.currents (v b - v e) (v b - v k)
    [current "c" k ic, current "b" b ib, current "e" e (-(ic + ib))]
  | .amplifier out p n law =>
    let difference := v p - v n
    current "out" out ((v out - .mkNum law.gain * difference) / .mkNum law.outputResistance) ::
      through ("in+", p) ("in-", n) (difference / .mkNum law.inputResistance)
  | .potentiometer a w b track =>
    let i₁ := (v a - v w) / track.upper
    let i₂ := (v w - v b) / track.lower
    [current "a" a i₁, current "w" w (i₂ - i₁), current "b" b (-i₂)]
  | .transformer pa pc sa sc turns =>
    let ip := Expr.named (branch ".p")
    let is := Expr.named (branch ".s")
    .unknown (branch ".p") :: through ("pa", pa) ("pc", pc) ip ++
      .unknown (branch ".s") :: [current "sa" sa (-is), current "sc" sc is,
        .equation (ip * turns) is,
        .equation (v pa - v pc) (turns * (v sa - v sc))]

/-- Everything that a component contributes to an assembly. -/
def actions (v : Node → Expr α) (c : Component α) : List (Action α) :=
  c.terminals.map .connect ++ c.laws v

end Component

end AnalogCircuit
