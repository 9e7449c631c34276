import AnalogCircuit.CommandLine
import AnalogCircuit.Scalar.Single
import AnalogCircuit.Stream.Processing
/-!
# The program

Runs a circuit over raw mono audio: samples in single precision come from the standard input, and the
output of the circuit goes to the standard output.
-/

namespace AnalogCircuit

/-- Processes the standard input to its end; `pending` are the bytes of an incomplete sample. -/
partial def pump (input output : IO.FS.Stream) (s : Simulation Double) (pending : List UInt8) :
    IO (Except Error Unit) := do
  let bytes ← input.read (USize.ofNat (4 * blockSize - pending.length))
  if bytes.isEmpty then
    output.flush
    return .ok ()
  else
    let (samples, pending) := Pcm.ofList (pending ++ bytes.toList)
    match s.processBlock samples (List.replicate samples.length .silence) with
    | (_, _, some e) => return .error e
    | (s, out, none) =>
      output.write ⟨(out.flatMap Pcm.toBytes).toArray⟩
      pump input output s pending

/-- Reports a failure. -/
def report (message : String) (status : UInt32) : IO UInt32 := do
  IO.eprintln ("Error: " ++ message)
  return status

/-- Simulates the circuit that the command line names. -/
def runProgram (arguments : List String) : IO UInt32 := do
  match (CommandLine.parse arguments : Except _ (String × CommandLine.Request Double)) with
  | .error e => report e.message 2
  | .ok (path, request) =>
    match ← (IO.FS.readFile path).toBaseIO with
    | .error e => report (Error.unreadableFile path e.toString).message 1
    | .ok netlist =>
      match request.simulation netlist with
      | .error e => report e.message 1
      | .ok s =>
        match ← pump (← IO.getStdin) (← IO.getStdout) s [] with
        | .error e => report e.message 1
        | .ok () => return 0

end AnalogCircuit

/-- The entry of the program. -/
def main (arguments : List String) : IO UInt32 := AnalogCircuit.runProgram arguments
