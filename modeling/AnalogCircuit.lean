import AnalogCircuit.Assembly
import AnalogCircuit.Builtin
import AnalogCircuit.Circuit.Basic
import AnalogCircuit.Circuit.Component
import AnalogCircuit.Circuit.Junction
import AnalogCircuit.Circuit.Node
import AnalogCircuit.CommandLine
import AnalogCircuit.Equation
import AnalogCircuit.Error
import AnalogCircuit.Expr.Basic
import AnalogCircuit.Expr.Build
import AnalogCircuit.Expr.Derivative
import AnalogCircuit.Expr.Domain
import AnalogCircuit.Expr.Evaluate
import AnalogCircuit.Expr.Factors
import AnalogCircuit.Expr.Order
import AnalogCircuit.Expr.Parse
import AnalogCircuit.Expr.Scan
import AnalogCircuit.Expr.Terms
import AnalogCircuit.Expr.Text
import AnalogCircuit.Expr.Traverse
import AnalogCircuit.Linear.Factors
import AnalogCircuit.Main
import AnalogCircuit.Netlist.Basic
import AnalogCircuit.Netlist.Line
import AnalogCircuit.Netlist.Parse
import AnalogCircuit.Netlist.Token
import AnalogCircuit.Netlist.Value
import AnalogCircuit.Numeral.Binary
import AnalogCircuit.Numeral.Layout
import AnalogCircuit.Numeral.Literal
import AnalogCircuit.Numeral.Rounded
import AnalogCircuit.Numeral.Shortest
import AnalogCircuit.Program.Basic
import AnalogCircuit.Program.Compilation
import AnalogCircuit.Program.Emission
import AnalogCircuit.Program.Execution
import AnalogCircuit.Program.Workspace
import AnalogCircuit.Scalar.Basic
import AnalogCircuit.Scalar.Double
import AnalogCircuit.Scalar.Single
import AnalogCircuit.Simulation.Basic
import AnalogCircuit.Simulation.Run
import AnalogCircuit.Stream.Pcm
import AnalogCircuit.Stream.Processing
import AnalogCircuit.Stream.Reader
import AnalogCircuit.Symbol
import AnalogCircuit.System
import AnalogCircuit.Text.Blank
import AnalogCircuit.Text.Case
import AnalogCircuit.Text.Letter
import AnalogCircuit.Text.Quoted
import AnalogCircuit.Text.Ranges
import AnalogCircuit.Text.Split
import AnalogCircuit.Transient.Discretization
import AnalogCircuit.Transient.Partition
import AnalogCircuit.Transient.UpdateLaw
import AnalogCircuit.Proofs.Exact
import AnalogCircuit.Proofs.Induction
import AnalogCircuit.Proofs.Order
import AnalogCircuit.Proofs.Sorted
import AnalogCircuit.Proofs.Value
import AnalogCircuit.Proofs.Sum
import AnalogCircuit.Proofs.Product
import AnalogCircuit.Proofs.Collecting
import AnalogCircuit.Proofs.Closure
import AnalogCircuit.Proofs.Tidy
import AnalogCircuit.Proofs.Rebuilding
import AnalogCircuit.Proofs.Merging
import AnalogCircuit.Proofs.Composed
import AnalogCircuit.Proofs.Signs
import AnalogCircuit.Proofs.Grammar
import AnalogCircuit.Proofs.Scanning
import AnalogCircuit.Proofs.Printable
import AnalogCircuit.Proofs.Reading
import AnalogCircuit.Proofs.Binary64
import AnalogCircuit.Proofs.Doubles
import AnalogCircuit.Proofs.RoundTrip
import AnalogCircuit.Proofs.Substitution
import AnalogCircuit.Proofs.Constructors
import AnalogCircuit.Proofs.Slope
import AnalogCircuit.Proofs.Derivative
import AnalogCircuit.Proofs.Occurrence
import AnalogCircuit.Proofs.Affine
import AnalogCircuit.Proofs.Elimination
import AnalogCircuit.Proofs.Execution
import AnalogCircuit.Proofs.Emittable
import AnalogCircuit.Proofs.Emission
import AnalogCircuit.Proofs.Code
import AnalogCircuit.Proofs.Blocks
import AnalogCircuit.Proofs.Bracket
import AnalogCircuit.Proofs.Law
import AnalogCircuit.Proofs.Row
import AnalogCircuit.Proofs.Precedence
import AnalogCircuit.Proofs.Sequence
import AnalogCircuit.Proofs.Discretization
import AnalogCircuit.Proofs.Balanced
import AnalogCircuit.Proofs.Algebraic
import AnalogCircuit.Proofs.Linear
import AnalogCircuit.Proofs.LinearSystem
import AnalogCircuit.Proofs.LinearStep
import AnalogCircuit.Proofs.Assembly
import AnalogCircuit.Proofs.Calls
import AnalogCircuit.Proofs.Taking
import AnalogCircuit.Proofs.Tokens
import AnalogCircuit.Proofs.Names
import AnalogCircuit.Proofs.Circuits
import AnalogCircuit.Proofs.Runs
import AnalogCircuit.Proofs.Square
import AnalogCircuit.Proofs.Breaks
import AnalogCircuit.Proofs.Lines
import AnalogCircuit.Proofs.ElementLines
import AnalogCircuit.Proofs.Reordering
import AnalogCircuit.Proofs.ElementOrder
import AnalogCircuit.Proofs.Ports
import AnalogCircuit.Proofs.LinearCircuit
import AnalogCircuit.Proofs.Requests
import AnalogCircuit.Proofs.Splitting
import AnalogCircuit.Proofs.Streaming
import AnalogCircuit.Proofs.Workspace
import AnalogCircuit.Proofs.Grounding
import AnalogCircuit.Proofs.EmissionSteps
import AnalogCircuit.Proofs.Founded
import AnalogCircuit.Proofs.GroundedProgram
import AnalogCircuit.Proofs.Alike
import AnalogCircuit.Proofs.Tracking
import AnalogCircuit.Proofs.Reset
import AnalogCircuit.Proofs.Factors
import AnalogCircuit.Proofs.NewtonLoop
import AnalogCircuit.Proofs.Newton
import AnalogCircuit.Proofs.Vanishing
import AnalogCircuit.Proofs.NewtonProgram
import AnalogCircuit.Proofs.Allocation
import AnalogCircuit.Proofs.WellFormed
import AnalogCircuit.Proofs.Bookkeeping
import AnalogCircuit.Proofs.Roles
import AnalogCircuit.Proofs.PiecewiseLinear
import AnalogCircuit.Proofs.Bindings
import AnalogCircuit.Proofs.Pivoting
import AnalogCircuit.Proofs.Reciprocal
import AnalogCircuit.Proofs.BuiltinDerivative
import AnalogCircuit.Proofs.Dual
import AnalogCircuit.Proofs.Combination
import AnalogCircuit.Proofs.Singular
import AnalogCircuit.Proofs.Arrangement
import AnalogCircuit.Proofs.Alignment
import AnalogCircuit.Proofs.Instant
import AnalogCircuit.Proofs.Difference
import AnalogCircuit.Proofs.Terminals
import AnalogCircuit.Proofs.Conservation
import AnalogCircuit.Proofs.Lossless
import AnalogCircuit.Proofs.Lookahead
import AnalogCircuit.Proofs.Directives
import AnalogCircuit.Proofs.Layout
import AnalogCircuit.Proofs.Lexemes
import AnalogCircuit.Proofs.Derivations
import AnalogCircuit.Proofs.Unsigned
import AnalogCircuit.Proofs.Literals
import AnalogCircuit.Proofs.Braces
import AnalogCircuit.Proofs.Identity
import AnalogCircuit.Proofs.Reals
import AnalogCircuit.Proofs.Atoms
import AnalogCircuit.Proofs.Track
import AnalogCircuit.Proofs.Junction
import AnalogCircuit.Proofs.Gains
import AnalogCircuit.Proofs.Routines
import AnalogCircuit.Proofs.Termination
