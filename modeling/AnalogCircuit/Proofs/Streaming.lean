import AnalogCircuit.Stream.Processing
import AnalogCircuit.Proofs.Ports
import AnalogCircuit.Proofs.Splitting
/-!
# Streams and runs

Processing a stream is one run over all its samples, however the bytes come. Bytes become samples in the same way
whether they are taken at once or in pieces, as long as the bytes of an incomplete sample are put in front of the
next piece; and a run over a block goes on where the one before has ended. A reader that stops has less than one
sample left, so nothing but these last bytes is dropped.
-/

namespace AnalogCircuit

/-! ## Bytes in pieces -/

namespace Pcm

theorem ofList_of_length_lt {bytes : List UInt8} (h : bytes.length < 4) : ofList bytes = ([], bytes) := by
  match bytes, h with
  | [], _ | [_], _ | [_, _], _ | [_, _, _], _ => rfl

/-- The bytes behind the last whole sample do not make one. -/
theorem length_incomplete (bytes : List UInt8) : (ofList bytes).2.length < 4 := by
  fun_induction ofList bytes with
  | case1 a b c d rest samples incomplete e ih => rwa [e] at ih
  | case2 bytes short =>
    rcases bytes with _ | ⟨a, _ | ⟨b, _ | ⟨c, _ | ⟨d, rest⟩⟩⟩⟩
    case cons.cons.cons.cons => exact absurd rfl (short a b c d rest)
    all_goals simp

theorem length_samples (bytes : List UInt8) : (ofList bytes).1.length = bytes.length / 4 := by
  have whole := length_ofList bytes
  have incomplete := length_incomplete bytes
  omega

/-- Bytes may come in two pieces: what the first piece leaves over goes in front of the second. -/
theorem ofList_append (front rest : List UInt8) :
    ofList (front ++ rest) =
      ((ofList front).1 ++ (ofList ((ofList front).2 ++ rest)).1, (ofList ((ofList front).2 ++ rest)).2) := by
  fun_induction ofList front with
  | case1 a b c d bytes samples incomplete e ih =>
    rw [e] at ih
    simp only [List.cons_append, ofList, ih]
  | case2 bytes short => rfl

end Pcm

/-! ## Reading -/

namespace ByteSource

/-- No read comes back empty before the end. -/
def Flows (s : ByteSource) : Prop := .atMost 0 ∉ s.schedule

/-- What is handed out stood in front of what is left. -/
theorem bytes_eq_of_read {s s' : ByteSource} {wanted : Nat} {bytes : List UInt8}
    (h : s.read wanted = (.ok bytes, s')) : s.bytes = bytes ++ s'.bytes := by
  cases delivers_of_read h with
  | bytes => exact (List.take_append_drop ..).symm

theorem schedule_suffix_of_read {s s' : ByteSource} {wanted : Nat} {r : Except String (List UInt8)}
    (h : s.read wanted = (r, s')) : s'.schedule <:+ s.schedule := by
  cases delivers_of_read h with
  | failure scheduled => exact scheduled ▸ List.suffix_cons ..
  | bytes le later => exact later

theorem Flows.of_read {s s' : ByteSource} {wanted : Nat} {r : Except String (List UInt8)} (flows : s.Flows)
    (h : s.read wanted = (r, s')) : s'.Flows := fun mem => flows ((schedule_suffix_of_read h).subset mem)

/-- An empty read is the end. -/
theorem Flows.bytes_eq_nil {s s' : ByteSource} {wanted : Nat} (flows : s.Flows) (some : 0 < wanted)
    (h : s.read wanted = (.ok [], s')) : s.bytes = [] := by
  generalize nothing : (.ok [] : Except String (List UInt8)) = r at h
  cases delivers_of_read h with
  | failure => cases nothing
  | @bytes n _ le later empty =>
    refine (List.take_eq_nil_iff.mp (Except.ok.inj nothing).symm).resolve_left fun zero => ?_
    rcases empty zero with unwanted | scheduled
    · exact absurd unwanted (Nat.ne_of_gt some)
    · exact flows scheduled

end ByteSource

namespace PcmReader

open ByteSource

variable {wanted : Nat} {filled : List UInt8} {s s' : ByteSource}

/-- Gathered bytes are the next ones, and there are enough for a sample. -/
theorem gather_some {bytes : List UInt8} (h : gather wanted filled s = (.ok (some bytes), s')) :
    filled ++ s.bytes = bytes ++ s'.bytes ∧ 4 ≤ bytes.length ∧ (s.Flows → s'.Flows) := by
  fun_induction gather wanted filled s with
  | case1 _ _ enough => cases h; exact ⟨rfl, enough, id⟩
  | case2 => cases h
  | case3 => cases h
  | case4 => cases h
  | case5 filled s _ _ b read s₁ e ih =>
    obtain ⟨same, enough, flows⟩ := ih h
    refine ⟨?_, enough, fun flowing => flows (flowing.of_read e)⟩
    rw [bytes_eq_of_read e, ← same, List.append_assoc]

/-- If nothing is gathered, there was less than a sample. -/
theorem gather_none (room : 4 ≤ wanted) (flows : s.Flows) (h : gather wanted filled s = (.ok none, s')) :
    (filled ++ s.bytes).length < 4 := by
  fun_induction gather wanted filled s with
  | case1 => cases h
  | case2 => cases h
  | case3 => cases h
  | case4 filled s few fits s₁ e =>
    rw [flows.bytes_eq_nil (by omega) e, List.append_nil]
    exact Nat.lt_of_not_le few
  | case5 filled s _ _ b read s₁ e ih =>
    have rest := ih (flows.of_read e) h
    rwa [List.append_assoc, ← bytes_eq_of_read e] at rest

/-- All samples that a reader has still to read. -/
def samplesLeft (r : PcmReader) : List Pcm := (Pcm.ofList (r.pending ++ r.source.bytes)).1

variable {r r' : PcmReader} {room : Nat} {p : Pcm} {ps : List Pcm}

/-- A block is taken from the front of the samples. -/
theorem samplesLeft_readBlock (h : r.readBlock room = (.ok (p :: ps), r')) :
    r.samplesLeft = p :: ps ++ r'.samplesLeft ∧ (r.source.Flows → r'.source.Flows) := by
  unfold readBlock at h
  split at h
  · cases h
  · cases h
  · next bytes source e =>
    obtain ⟨same, -, flows⟩ := gather_some e
    simp only [Prod.mk.injEq, Except.ok.injEq] at h
    obtain ⟨samples, rfl⟩ := h
    refine ⟨?_, flows⟩
    unfold samplesLeft
    rw [same, Pcm.ofList_append, samples]

/-- The end is reported only where no whole sample is left. -/
theorem samplesLeft_eq_nil (positive : 0 < room) (flows : r.source.Flows)
    (h : r.readBlock room = (.ok [], r')) : r.samplesLeft = [] := by
  unfold readBlock at h
  split at h
  · cases h
  · next source e =>
    unfold samplesLeft
    rw [Pcm.ofList_of_length_lt (gather_none (by omega) flows e)]
  · next bytes source e =>
    -- gathered bytes make at least one sample
    obtain ⟨-, enough, -⟩ := gather_some e
    have samples := Pcm.length_samples bytes
    simp only [Prod.mk.injEq, Except.ok.injEq] at h
    rw [h.1, List.length_nil] at samples
    omega

end PcmReader

/-! ## Blocks one after the other -/

namespace Simulation

section

variable {α : Type} [Scalar α] {s s₁ s₂ : Simulation α} {xs₁ xs₂ ys₁ ys₂ : List α}

theorem exists_output (h : s.process xs₁ ys₁ = ⟨s₁, [ys₂], none⟩) : ∃ output, s.output? = some output := by
  cases known : s.output? with
  | none =>
    rw [process_of_none known] at h
    cases h
  | some output => exact ⟨output, rfl⟩

/-- Processing gives one buffer, also if it fails. -/
theorem exists_outputs_process (s : Simulation α) (samples buffer : List α) :
    ∃ ys, (s.process samples buffer).outputs = [ys] := by
  cases known : s.output? with
  | none =>
    rw [process_of_none known]
    exact ⟨buffer, rfl⟩
  | some output =>
    rw [process_eq_run known]
    rcases s.run_cases (s.processing output samples buffer) with ⟨accepted, run⟩ | ⟨-, e, run, -⟩
    · have width := length_observed accepted
      rw [run, execute_eq, width]
      cases s.failure? _ _ <;> exact ⟨_, rfl⟩
    · rw [run]
      exact ⟨buffer, rfl⟩

/-- A simulation with an input and an output that has not diverged does not refuse to process samples. -/
theorem HasPorts.accepts (h : s.HasPorts) (alive : s.phase ≠ .diverged) {output : String}
    (known : s.output? = some output) (xs : List α) :
    s.Accepts (s.processing output xs (List.replicate xs.length 0)) where
  alive := alive
  budget := h.budget
  inputs b hb := by
    obtain ⟨name, driven, rfl⟩ := List.mem_map.mp hb
    exact ⟨h.input name (Option.mem_toList.mp driven), List.length_replicate.symm⟩
  outputs b hb := by
    obtain ⟨name, found, place⟩ := h.output
    obtain rfl : name = output := Option.some.inj (found.symm.trans known)
    obtain rfl := List.mem_singleton.mp hb
    exact ⟨place, rfl⟩
  bindings b hb := absurd hb List.not_mem_nil

/-- Processing nothing changes nothing, and is not refused where samples are processed. -/
theorem process_nil (s : Simulation α) : ∃ error?, s.process [] [] = ⟨s, [[]], error?⟩ ∧
    (s.HasPorts → s.phase ≠ .diverged → error? = none) := by
  cases known : s.output? with
  | none =>
    refine ⟨some .missingOutput, process_of_none known [] [], fun ports _ => ?_⟩
    obtain ⟨output, found, -⟩ := ports.output
    cases found.symm.trans known
  | some output =>
    rw [process_eq_run known]
    rcases s.run_cases (s.processing output [] []) with ⟨accepted, -⟩ | ⟨refused, e, run, -⟩
    · have width : (s.planned (s.processing output [] [])).observed.length = 1 := length_observed accepted
      have outputs : [[]] = columns (s.planned (s.processing output [] [])).observed.length
          (s.frameAll (s.processing output [] []) (s.planned (s.processing output [] []))).1 := by
        rw [width]
        rfl
      have finite : s.failure? (s.processing output [] []) (s.planned (s.processing output [] [])) = none := by
        unfold failure?
        rw [← outputs]
        rfl
      exact ⟨none, run_eq_ok_iff.mpr ⟨accepted, finite, rfl, outputs⟩, fun _ _ => rfl⟩
    · exact ⟨some e, run, fun ports alive => absurd (ports.accepts alive known []) refused⟩

/-- A run keeps what processing depends on. -/
theorem settings_of_run {r : Request α} {o : List (List α)} (h : s.run r = ⟨s₁, o, none⟩) :
    s₁.input? = s.input? ∧ s₁.output? = s.output? ∧ s₁.iterations = s.iterations := by
  obtain ⟨-, -, rfl, -⟩ := run_eq_ok_iff.mp h
  obtain ⟨phase, proceeded⟩ := proceed_cases (s.frameAll r (s.planned r)).2 r.samples
  obtain ⟨parameters, workspace, bound⟩ := s.exists_of_bindAll (s.planned r).bindings
  obtain ⟨workspace', inputs, framed⟩ := s.exists_of_frameAll r (s.planned r)
  rw [proceeded, framed, bound]
  exact ⟨rfl, rfl, rfl⟩

theorem length_frames (budget : Nat) (observed : List Nat) (targets : List (List α)) (s : Simulation α) :
    (frames budget observed targets s).1.length = targets.length := by
  induction targets generalizing s with
  | nil => rfl
  | cons targets rest ih => exact congrArg (· + 1) (ih (s.frame budget targets))

/-- Each sample gives one. -/
theorem length_process (h : s.process xs₁ (List.replicate xs₁.length 0) = ⟨s₁, [ys₁], none⟩) :
    ys₁.length = xs₁.length := by
  obtain ⟨output, known⟩ := exists_output h
  rw [process_eq_run known] at h
  obtain ⟨-, -, -, columns⟩ := run_eq_ok_iff.mp h
  have mem : ys₁ ∈ [ys₁] := List.mem_singleton_self ys₁
  rw [columns] at mem
  obtain ⟨j, -, rfl⟩ := List.mem_map.mp mem
  rw [List.length_map]
  unfold frameAll
  rw [length_frames, inputFrames_eq, List.length_map, List.length_range]
  exact List.length_replicate

/-- Processing goes on where it has ended. -/
theorem process_append (h₁ : s.process xs₁ (List.replicate xs₁.length 0) = ⟨s₁, [ys₁], none⟩)
    (h₂ : s₁.process xs₂ (List.replicate xs₂.length 0) = ⟨s₂, [ys₂], none⟩) :
    s.process (xs₁ ++ xs₂) (List.replicate (xs₁ ++ xs₂).length 0) = ⟨s₂, [ys₁ ++ ys₂], none⟩ := by
  obtain ⟨output, known⟩ := exists_output h₁
  rw [process_eq_run known] at h₁ ⊢
  obtain ⟨input, observed, iterations⟩ := settings_of_run h₁
  rw [process_eq_run (observed.trans known)] at h₂
  let r := s.processing output (xs₁ ++ xs₂) (List.replicate (xs₁ ++ xs₂).length 0)
  have front : r.front xs₁.length = s.processing output xs₁ (List.replicate xs₁.length 0) := by
    simp [r, processing, Request.front, List.map_map, Function.comp_def]
  have rest : r.rest xs₁.length = s₁.processing output xs₂ (List.replicate xs₂.length 0) := by
    simp [r, processing, Request.rest, List.map_map, Function.comp_def, input, iterations]
  have samples : r.samples = xs₁.length + xs₂.length := by simp [r, processing]
  rw [← front] at h₁
  rw [← rest] at h₂
  exact (run_join samples h₁ h₂).2.2

end

variable {α : Type} [PcmScalar α]

/-- Some samples go in and others come out: nothing happens if there are none, else they are processed at once. -/
inductive Transforms (s : Simulation α) : List Pcm → List α → Simulation α → Prop
  | none : s.Transforms [] [] s
  | some {xs : List Pcm} {ys : List α} {s₁ : Simulation α}
      (h : s.process (xs.map PcmScalar.ofPcm) (List.replicate xs.length 0) = ⟨s₁, [ys], .none⟩) :
      s.Transforms xs ys s₁

variable {s s₁ s₂ : Simulation α} {xs xs₁ xs₂ : List Pcm} {ys ys₁ ys₂ : List α}

theorem Transforms.append (h₁ : s.Transforms xs₁ ys₁ s₁) (h₂ : s₁.Transforms xs₂ ys₂ s₂) :
    s.Transforms (xs₁ ++ xs₂) (ys₁ ++ ys₂) s₂ := by
  cases h₁ with
  | none => exact h₂
  | some first =>
    cases h₂ with
    | none => rw [List.append_nil, List.append_nil]; exact .some first
    | some second =>
      rw [← List.length_map (f := PcmScalar.ofPcm (α := α))] at first second
      have both := process_append first second
      rw [← List.map_append, List.length_map] at both
      exact .some both

/-- A block that does not fail is processed as a whole. -/
theorem transforms_of_processBlock {output : List Pcm}
    (h : s.processBlock xs (List.replicate xs.length .silence) = (s₁, output, none)) :
    ∃ ys, s.Transforms xs ys s₁ ∧ output = ys.map PcmScalar.toPcm := by
  unfold processBlock at h
  simp only [List.length_replicate, Nat.min_self, List.take_length, List.drop_replicate, Nat.sub_self,
    List.replicate_zero, List.append_nil] at h
  split at h
  · cases h
  · next fine =>
    simp only [Prod.mk.injEq, and_true] at h
    obtain ⟨rfl, rfl⟩ := h
    obtain ⟨ys, outputs⟩ := exists_outputs_process s (xs.map PcmScalar.ofPcm) (List.replicate xs.length 0)
    refine ⟨ys, .some ?_, by rw [outputs, List.headD_cons]⟩
    rw [← outputs, ← fine]

end Simulation

/-! ## Streams -/

variable {α : Type} [PcmScalar α] {s s' : Simulation α} {sink sink' : ByteSink}

theorem ByteSink.written_of_write {bytes : List UInt8} (h : sink.write bytes = .ok sink') :
    sink'.written = sink.written ++ bytes := by
  unfold write at h
  split at h
  · cases h
  · cases h; rfl

/-- What is left of a stream is processed as a whole. The induction is on the blocks: each takes its samples from
the front of those that are left. -/
theorem transforms_of_processFrom {total n : Nat} {reader : PcmReader} (flows : reader.source.Flows)
    (h : processFrom total s reader sink = ⟨s', sink', .ok n⟩) :
    ∃ ys, s.Transforms reader.samplesLeft ys s' ∧ n = total + reader.samplesLeft.length ∧
      sink'.written = sink.written ++ ys.flatMap fun y => (PcmScalar.toPcm y).toBytes := by
  fun_induction processFrom total s reader sink with
  | case1 => cases h
  | case2 total s reader sink reader' read =>
    rw [PcmReader.samplesLeft_eq_nil (by decide) flows read]
    obtain ⟨rfl, rfl, ended⟩ := StreamOutcome.mk.injEq .. ▸ h
    refine ⟨[], .none, ?_, by rw [List.flatMap_nil, List.append_nil]⟩
    cases flushed : sink.flush with
    | error e => rw [flushed] at ended; cases ended
    | ok _ => rw [flushed] at ended; cases ended; rfl
  | case3 => cases h
  | case4 => cases h
  | case5 total s reader sink p ps reader' read samples s₁ output processed sink₁ wrote ih =>
    obtain ⟨left, flows'⟩ := PcmReader.samplesLeft_readBlock read
    obtain ⟨ys₁, block, rfl⟩ := Simulation.transforms_of_processBlock processed
    obtain ⟨ys, rest, count, written⟩ := ih (flows' flows) h
    refine ⟨ys₁ ++ ys, left ▸ block.append rest, ?_, ?_⟩
    · rw [count, left, List.length_append, Nat.add_assoc]
    · rw [written, ByteSink.written_of_write wrote, List.flatMap_map, List.flatMap_append, List.append_assoc]

/-- Processing a stream whose reads are not empty before its end is processing all its whole samples at once; at
most three bytes are left over. Only if there is no whole sample may that be refused, and then not for a simulation of
a circuit from a text that has not diverged. -/
theorem processStream_eq_process {source : ByteSource} {n : Nat} (flows : source.Flows)
    (h : processStream s source sink = ⟨s', sink', .ok n⟩) :
    n = source.bytes.length / 4 ∧
      ∃ ys error?, s.process ((Pcm.ofList source.bytes).1.map PcmScalar.ofPcm) (List.replicate n 0) =
          ⟨s', [ys], error?⟩ ∧
        sink'.written = sink.written ++ ys.flatMap (fun y => (PcmScalar.toPcm y).toBytes) ∧
        (0 < n ∨ s.FromText ∧ s.phase ≠ .diverged → error? = none) := by
  obtain ⟨ys, transforms, count, written⟩ := transforms_of_processFrom flows h
  have samples : PcmReader.samplesLeft (.ofSource source) = (Pcm.ofList source.bytes).1 := rfl
  rw [samples] at transforms count
  rw [Nat.zero_add] at count
  refine ⟨count.trans (Pcm.length_samples source.bytes), ys, ?_⟩
  generalize (Pcm.ofList source.bytes).1 = xs at transforms count ⊢
  cases transforms with
  | some processed => exact ⟨none, count ▸ processed, written, fun _ => rfl⟩
  | none =>
    obtain rfl : n = 0 := count
    obtain ⟨error?, nothing, fine⟩ := s.process_nil
    exact ⟨error?, nothing, written, fun h => h.elim (absurd · (Nat.lt_irrefl 0)) fun h => fine h.1.hasPorts h.2⟩

/-- Samples as the whole numbers that their bits denote. -/
instance : PcmScalar ℚ where
  ofPcm p := p.bits.toNat
  toPcm x := ⟨.ofNat x.num.toNat⟩

/-- A capacitor that is charged through a resistor. -/
def charger : String := ".input in\n.output out\nR1 in out 1\nC1 out 0 1"

/-- Two samples and one byte, in reads that end elsewhere. -/
def interrupted : ByteSource := ⟨[30, 0, 0, 0, 56, 0, 0, 0, 7], [.atMost 3, .atMost 2, .atMost 4]⟩

/-- What the capacitor of the first block still holds counts in the second. -/
theorem processStream_eq_process_charger :
    ∃ c s s' sink', Circuit.ofText charger = .ok c ∧ Simulation.ofCircuit (α := ℚ) c ⟨1, 1, 1, 1⟩ = .ok s ∧
      interrupted.Flows ∧ processStream s interrupted ⟨[], none, "", none⟩ = ⟨s', sink', .ok 2⟩ ∧
      sink'.written = [10, 0, 0, 0, 32, 0, 0, 0] ∧
      ∃ ys, s.process ((Pcm.ofList interrupted.bytes).1.map PcmScalar.ofPcm) [0, 0] = ⟨s', [ys], none⟩ ∧
        sink'.written = ys.flatMap fun y => (PcmScalar.toPcm y).toBytes := by
  have streamed : ((Circuit.ofText charger).toOption.bind fun c =>
      (Simulation.ofCircuit (α := ℚ) c ⟨1, 1, 1, 1⟩).toOption.map fun s =>
        let o := processStream s interrupted ⟨[], none, "", none⟩
        (o.sink.written, o.total.toOption)) = some ([10, 0, 0, 0, 32, 0, 0, 0], some 2) := by decide +kernel
  have flows : interrupted.Flows := by unfold ByteSource.Flows; decide
  cases read : Circuit.ofText (α := ℚ) charger with
  | error e => rw [read] at streamed; cases streamed
  | ok c =>
    rw [read] at streamed
    cases built : Simulation.ofCircuit (α := ℚ) c ⟨1, 1, 1, 1⟩ with
    | error e => simp only [Except.toOption, Option.bind_some, built, Option.map_none] at streamed; cases streamed
    | ok s =>
      simp only [Except.toOption, Option.bind_some, built, Option.map_some, Option.some.injEq,
        Prod.mk.injEq] at streamed
      obtain ⟨written, total⟩ := streamed
      cases outcome : processStream s interrupted ⟨[], none, "", none⟩ with
      | mk s' sink' total' =>
        rw [outcome] at written total
        cases total' with
        | error e => cases total
        | ok n =>
          obtain rfl : n = 2 := Option.some.inj total
          obtain ⟨-, ys, error?, processed, same, fine⟩ := processStream_eq_process flows outcome
          obtain rfl := fine (.inl Nat.two_pos)
          exact ⟨c, s, s', sink', rfl, built, flows, outcome, written, ys, processed, same⟩

end AnalogCircuit
