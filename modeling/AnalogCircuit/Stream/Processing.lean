import AnalogCircuit.Simulation.Run
import AnalogCircuit.Stream.Reader
/-!
# Processing streams

A stream goes through a simulation block by block: samples are read, run and written until the source
ends. A failure anywhere ends the stream; what was written before it stays written.

Every block takes bytes from the source, so processing ends.
-/

namespace AnalogCircuit

/-! ## Sinks -/

/-- Bytes that were written, and when writing fails. -/
structure ByteSink where
  written : List UInt8
  /-- A write beyond so many bytes fails. -/
  limit? : Option Nat
  /-- The message with which such a write fails. -/
  overflow : String
  /-- The message with which the end of the stream fails. -/
  flushFailure? : Option String

namespace ByteSink

/-- Writes all of some bytes or, if they do not fit, none. -/
def write (s : ByteSink) (bytes : List UInt8) : Except Error ByteSink :=
  if s.limit?.any (· < s.written.length + bytes.length) then .error (.audioOutput s.overflow)
  else .ok { s with written := s.written ++ bytes }

/-- Ends the stream. -/
def flush (s : ByteSink) : Except Error Unit :=
  match s.flushFailure? with
  | some message => .error (.audioOutput message)
  | none => .ok ()

end ByteSink

/-! ## Blocks -/

variable {α : Type} [PcmScalar α]

namespace Simulation

/-- Runs a block; only as many samples as both the input and the output have are processed. -/
def processBlock (s : Simulation α) (input output : List Pcm) :
    Simulation α × List Pcm × Option Error :=
  let n := min input.length output.length
  let outcome := s.process ((input.take n).map PcmScalar.ofPcm) (List.replicate n 0)
  match outcome.error? with
  | some e => (outcome.simulation, output, some e)
  | none =>
    (outcome.simulation, (outcome.outputs.headD []).map PcmScalar.toPcm ++ output.drop n, none)

end Simulation

/-! ## Streams -/

/-- The end of a stream. -/
structure StreamOutcome (α : Type) where
  simulation : Simulation α
  sink : ByteSink
  /-- The number of samples, or the failure that ended the stream. -/
  total : Except Error Nat

/-- The number of samples that are processed at once. -/
def blockSize : Nat := 256

/-- Processes what is left of a stream, of which `total` samples are written. -/
def processFrom (total : Nat) (s : Simulation α) (reader : PcmReader) (sink : ByteSink) :
    StreamOutcome α :=
  match _h : reader.readBlock blockSize with
  | (.error e, _) => ⟨s, sink, .error e⟩
  | (.ok [], _) => ⟨s, sink, sink.flush.map fun _ => total⟩
  | (.ok (p :: ps), reader) =>
    let samples := p :: ps
    match s.processBlock samples (List.replicate samples.length .silence) with
    | (s, _, some e) => ⟨s, sink, .error e⟩
    | (s, output, none) =>
      match sink.write (output.flatMap Pcm.toBytes) with
      | .error e => ⟨s, sink, .error e⟩
      | .ok sink => processFrom (total + samples.length) s reader sink
termination_by reader.remaining
decreasing_by exact PcmReader.remaining_readBlock _h

/-- Processes a stream from its source to its sink. -/
def processStream (s : Simulation α) (source : ByteSource) (sink : ByteSink) : StreamOutcome α :=
  processFrom 0 s (.ofSource source) sink

end AnalogCircuit
