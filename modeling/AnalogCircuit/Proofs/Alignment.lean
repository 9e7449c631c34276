import AnalogCircuit.Proofs.Streaming
/-!
# Samples and the calls that read them

Where a read ends has nothing to do with where a sample ends. As long as no read fails, the blocks that a caller
gets make up the samples of the stream, whatever the reads hand out and however long the blocks may be.

A read that fails ends its call, and what the call had taken until then is not carried over. The samples are
therefore those of the stream without the bytes that failing calls have taken; these bytes are all of the stream
exactly if every call that fails does so with its first read.
-/

namespace AnalogCircuit

/-! ## Bytes of samples -/

namespace Pcm

/-- The first byte of a number is the least significant one. -/
theorem toNat_ofBytes (a b c d : UInt8) :
    (ofBytes a b c d).bits.toNat = a.toNat + 2 ^ 8 * b.toNat + 2 ^ 16 * c.toNat + 2 ^ 24 * d.toNat := by
  have ha := a.toNat_lt
  have hb := b.toNat_lt
  have hc := c.toNat_lt
  have hd := d.toNat_lt
  -- each byte is put behind bits that make up a smaller number
  have behind {x y i : Nat} (small : x < 2 ^ i) : x ||| y <<< i = x + 2 ^ i * y := by
    rw [Nat.or_comm, Nat.shiftLeft_eq, Nat.mul_comm, ← Nat.two_pow_add_eq_or_of_lt small, Nat.add_comm]
  have shifted {x i : Nat} (small : x * 2 ^ i < 2 ^ 32) : x <<< i % 2 ^ 32 = x <<< i := by
    rw [Nat.shiftLeft_eq, Nat.mod_eq_of_lt small]
  change a.toNat ||| b.toNat <<< 8 % 2 ^ 32 ||| c.toNat <<< 16 % 2 ^ 32 ||| d.toNat <<< 24 % 2 ^ 32 = _
  rw [shifted (by omega), shifted (by omega), shifted (by omega), behind ha,
    behind (x := a.toNat + 2 ^ 8 * b.toNat) (by omega), behind (by omega)]

theorem toBytes_ofBytes (a b c d : UInt8) : (ofBytes a b c d).toBytes = [a, b, c, d] := by
  have number := toNat_ofBytes a b c d
  have ha := a.toNat_lt
  have hb := b.toNat_lt
  have hc := c.toNat_lt
  have hd := d.toNat_lt
  generalize ofBytes a b c d = p at number
  have lowest : p.bits.toUInt8 = a := by
    rw [← UInt8.toNat_inj, UInt32.toNat_toUInt8]
    omega
  have byte (i : UInt32) {n : Nat} {e : UInt8} (places : i.toNat % 32 = n)
      (h : p.bits.toNat / 2 ^ n % 2 ^ 8 = e.toNat) : (p.bits >>> i).toUInt8 = e := by
    rw [← UInt8.toNat_inj, UInt32.toNat_toUInt8, UInt32.toNat_shiftRight, Nat.shiftRight_eq_div_pow, places, h]
  rw [toBytes, lowest, byte (n := 8) (e := b) 8 rfl (by omega), byte (n := 16) (e := c) 16 rfl (by omega),
    byte (n := 24) (e := d) 24 rfl (by omega)]

/-- A sequence of bytes consists of the bytes of its samples and those of the incomplete one. -/
theorem flatMap_toBytes_append (bytes : List UInt8) :
    (ofList bytes).1.flatMap toBytes ++ (ofList bytes).2 = bytes := by
  fun_induction ofList bytes with
  | case1 a b c d rest samples incomplete e ih =>
    rw [e] at ih
    rw [List.flatMap_cons, toBytes_ofBytes, List.append_assoc, ih]
    rfl
  | case2 => rfl

theorem length_flatMap_toBytes (samples : List Pcm) : (samples.flatMap toBytes).length = 4 * samples.length := by
  induction samples with
  | nil => rfl
  | cons p samples ih =>
    rw [List.flatMap_cons, List.length_append, ih, List.length_cons]
    change 4 + _ = _
    omega

theorem flatMap_toBytes (bytes : List UInt8) :
    (ofList bytes).1.flatMap toBytes = bytes.take (4 * (bytes.length / 4)) := by
  have whole := flatMap_toBytes_append bytes
  have length := length_flatMap_toBytes (ofList bytes).1
  rw [length_samples] at length
  calc (ofList bytes).1.flatMap toBytes
      = ((ofList bytes).1.flatMap toBytes ++ (ofList bytes).2).take (4 * (bytes.length / 4)) :=
        (List.take_left' length).symm
    _ = bytes.take (4 * (bytes.length / 4)) := by rw [whole]

end Pcm

/-! ## One read -/

namespace ByteSource

variable {s s' : ByteSource} {wanted : Nat}

/-- No read fails. -/
def Reliable (s : ByteSource) : Prop := ∀ message, .failure message ∉ s.schedule

theorem length_le_of_read {bytes : List UInt8} (h : s.read wanted = (.ok bytes, s')) : bytes.length ≤ wanted := by
  cases delivers_of_read h with
  | bytes le => exact (List.length_take_le ..).trans le

/-- A read that fails hands out nothing, and is one of those that were to fail. -/
theorem failure_of_read {message : String} (h : s.read wanted = (.error message, s')) :
    s'.bytes = s.bytes ∧ .failure message ∈ s.schedule := by
  cases delivers_of_read h with
  | failure scheduled => exact ⟨rfl, scheduled ▸ List.mem_cons_self⟩

end ByteSource

namespace PcmReader

open ByteSource

/-! ## One call -/

/-- A call that reads a block. -/
structure Call where
  reader : PcmReader
  /-- The number of samples for which there is room. -/
  room : Nat

namespace Call

/-- What is answered. -/
def answer (c : Call) : Except Error (List Pcm) := (c.reader.readBlock c.room).1

/-- The reader for the next call. -/
def after (c : Call) : PcmReader := (c.reader.readBlock c.room).2

/-- The samples of a call; a failing call has none. -/
def samples (c : Call) : List Pcm := c.answer.toOption.getD []

/-- The bytes that are taken from the source. -/
def taken (c : Call) : List UInt8 :=
  c.reader.source.bytes.take (c.reader.source.bytes.length - c.after.source.bytes.length)

/-- The bytes that are taken from the source and not lost by failing. -/
def kept (c : Call) : List UInt8 :=
  match c.answer with
  | .ok _ => c.taken
  | .error _ => []

end Call

/-- Between two calls there is less than a sample pending, and no read comes back empty before the end. -/
structure Ready (r : PcmReader) : Prop where
  short : r.pending.length < 4
  flows : r.source.Flows

theorem ready_ofSource {s : ByteSource} (flows : s.Flows) : (ofSource s).Ready := ⟨Nat.zero_lt_succ 3, flows⟩

/-- Gathering takes the next bytes: enough for a sample and no more than there is room for, or all that are left,
or some before a read fails. The induction is on the reads. -/
theorem gather_cases {wanted : Nat} {filled : List UInt8} {s s' : ByteSource}
    {answer : Except Error (Option (List UInt8))} (room : 4 ≤ wanted) (fits : filled.length ≤ wanted)
    (flows : s.Flows) (h : gather wanted filled s = (answer, s')) :
    ∃ taken, s.bytes = taken ++ s'.bytes ∧ s'.Flows ∧ s'.schedule <:+ s.schedule ∧
      ((answer = .ok (some (filled ++ taken)) ∧ 4 ≤ (filled ++ taken).length ∧ (filled ++ taken).length ≤ wanted) ∨
        (answer = .ok none ∧ s'.bytes = [] ∧ (filled ++ taken).length < 4) ∨
        ∃ message, answer = .error (.audioInput message) ∧ .failure message ∈ s.schedule ∧
          (filled ++ taken).length < 4) := by
  fun_induction gather wanted filled s with
  | case1 filled s enough =>
    cases h
    refine ⟨[], rfl, flows, List.suffix_refl _, .inl ?_⟩
    rw [List.append_nil]
    exact ⟨rfl, enough, fits⟩
  | case2 filled s few tight => exact absurd fits (Nat.not_le_of_lt tight)
  | case3 filled s few loose message s₁ e =>
    cases h
    obtain ⟨same, scheduled⟩ := failure_of_read e
    refine ⟨[], same.symm, flows.of_read e, schedule_suffix_of_read e, .inr (.inr ⟨message, rfl, scheduled, ?_⟩)⟩
    rw [List.append_nil]
    exact Nat.lt_of_not_le few
  | case4 filled s few loose s₁ e =>
    cases h
    have ended := flows.bytes_eq_nil (by omega) e
    have same := bytes_eq_of_read e
    refine ⟨[], same, flows.of_read e, schedule_suffix_of_read e, .inr (.inl ⟨rfl, ?_, ?_⟩)⟩
    · rw [← ended, same, List.nil_append]
    · rw [List.append_nil]
      exact Nat.lt_of_not_le few
  | case5 filled s few loose b bytes s₁ e ih =>
    have length := length_le_of_read e
    have fits' : (filled ++ b :: bytes).length ≤ wanted := by
      rw [List.length_append]
      omega
    obtain ⟨taken, same, flows', suffix, outcome⟩ := ih fits' (flows.of_read e) h
    refine ⟨b :: bytes ++ taken, ?_, flows', suffix.trans (schedule_suffix_of_read e), ?_⟩
    · rw [bytes_eq_of_read e, same, List.append_assoc]
    · rw [← List.append_assoc]
      obtain done | ended | ⟨message, failed, scheduled, few⟩ := outcome
      · exact .inl done
      · exact .inr (.inl ended)
      · exact .inr (.inr ⟨message, failed, (schedule_suffix_of_read e).subset scheduled, few⟩)

namespace Call

variable {c : Call}

/-- What a call does: it takes the bytes that stood in front, and it gives samples and carries the rest over, or it
finds less than a sample before the end, or it fails. In the last two cases it carries over no more than what had been
pending before. -/
theorem cases (ready : c.reader.Ready) (positive : 0 < c.room) :
    c.taken ++ c.after.source.bytes = c.reader.source.bytes ∧ c.after.source.Flows ∧
      c.after.source.schedule <:+ c.reader.source.schedule ∧
      ((c.answer = .ok (Pcm.ofList (c.reader.pending ++ c.taken)).1 ∧
          c.after.pending = (Pcm.ofList (c.reader.pending ++ c.taken)).2 ∧
          4 ≤ (c.reader.pending ++ c.taken).length ∧ (c.reader.pending ++ c.taken).length ≤ 4 * c.room) ∨
        (c.answer = .ok [] ∧ c.after.pending = c.reader.pending ∧ c.after.source.bytes = [] ∧
          (c.reader.pending ++ c.taken).length < 4) ∨
        ∃ message, c.answer = .error (.audioInput message) ∧ c.after.pending = c.reader.pending ∧
          .failure message ∈ c.reader.source.schedule ∧ (c.reader.pending ++ c.taken).length < 4) := by
  have short := ready.short
  cases gathered : gather (4 * c.room) c.reader.pending c.reader.source with
  | mk gathering source =>
    obtain ⟨taken, same, flows, suffix, outcome⟩ := gather_cases (by omega) (by omega) ready.flows gathered
    have after : c.after.source = source := by
      unfold Call.after readBlock
      rw [gathered]
      obtain ⟨rfl, -⟩ | ⟨rfl, -⟩ | ⟨_, rfl, -⟩ := outcome <;> rfl
    have front : c.taken = taken := by
      unfold Call.taken
      rw [after, same, List.length_append, Nat.add_sub_cancel, List.take_left' rfl]
    rw [after, front]
    refine ⟨same.symm, flows, suffix, ?_⟩
    unfold Call.answer Call.after readBlock
    rw [gathered]
    obtain ⟨rfl, enough, fits⟩ | ⟨rfl, ended⟩ | ⟨message, rfl, scheduled, few⟩ := outcome
    · exact .inl ⟨rfl, rfl, enough, fits⟩
    · exact .inr (.inl ⟨rfl, rfl, ended⟩)
    · exact .inr (.inr ⟨message, rfl, rfl, scheduled, few⟩)

theorem ready_after (ready : c.reader.Ready) (positive : 0 < c.room) : c.after.Ready := by
  obtain ⟨-, flows, -, outcome⟩ := cases ready positive
  obtain ⟨-, carried, -⟩ | ⟨-, carried, -⟩ | ⟨-, -, carried, -⟩ := outcome
  · exact ⟨carried ▸ Pcm.length_incomplete _, flows⟩
  · exact ⟨carried ▸ ready.short, flows⟩
  · exact ⟨carried ▸ ready.short, flows⟩

/-- The bytes in hand never exceed the room for them. -/
theorem length_in_hand (ready : c.reader.Ready) (positive : 0 < c.room) :
    (c.reader.pending ++ c.taken).length ≤ 4 * c.room := by
  obtain ⟨-, -, -, ⟨-, -, -, fits⟩ | ⟨-, -, -, few⟩ | ⟨-, -, -, -, few⟩⟩ := cases ready positive
  · exact fits
  · omega
  · omega

/-- The samples of a call, and then those of whatever is put behind what it carries over, are the samples of the bytes
that it had or has taken and not lost. At the end there is nothing to be put behind. -/
theorem samples_append (ready : c.reader.Ready) (positive : 0 < c.room) {rest : List UInt8}
    (ended : c.after.source.bytes = [] → rest = []) :
    c.samples ++ (Pcm.ofList (c.after.pending ++ rest)).1 = (Pcm.ofList (c.reader.pending ++ (c.kept ++ rest))).1 := by
  unfold Call.samples Call.kept
  obtain ⟨-, -, -, ⟨answer, carried, -⟩ | ⟨answer, carried, nothing, few⟩ | ⟨message, answer, carried, -⟩⟩ :=
    cases ready positive
  · rw [answer, carried, ← List.append_assoc, Pcm.ofList_append (c.reader.pending ++ c.taken)]
    rfl
  · rw [answer, carried, ended nothing, List.append_nil, List.append_nil, Pcm.ofList_of_length_lt ready.short,
      Pcm.ofList_of_length_lt few]
    rfl
  · rw [answer, carried]
    rfl

/-- Only the end makes a call that does not fail come back empty. -/
theorem ended_of_answer (ready : c.reader.Ready) (positive : 0 < c.room) (empty : c.answer = .ok []) :
    c.after.source.bytes = [] := by
  obtain ⟨-, -, -, ⟨answer, -, enough, -⟩ | ⟨-, -, ended, -⟩ | ⟨message, failed, -⟩⟩ := cases ready positive
  · have none := Except.ok.inj (answer.symm.trans empty)
    have samples := Pcm.length_samples (c.reader.pending ++ c.taken)
    rw [none, List.length_nil] at samples
    omega
  · exact ended
  · cases failed.symm.trans empty

end Call

/-! ## Call after call -/

/-- The calls for blocks of the given lengths, one after the other, whether they fail or not. -/
def calls (r : PcmReader) : List Nat → List Call
  | [] => []
  | room :: rooms => ⟨r, room⟩ :: (Call.mk r room).after.calls rooms

/-- The reader after these calls. -/
def afterCalls (r : PcmReader) : List Nat → PcmReader
  | [] => r
  | room :: rooms => (Call.mk r room).after.afterCalls rooms

/-- The bytes of the source without those that failing calls take. -/
def spared (r : PcmReader) : List Nat → List UInt8
  | [] => r.source.bytes
  | room :: rooms => (Call.mk r room).kept ++ (Call.mk r room).after.spared rooms

variable {r : PcmReader} {rooms : List Nat}

theorem ready_of_mem_calls (ready : r.Ready) (positive : ∀ room ∈ rooms, 0 < room) :
    ∀ c ∈ r.calls rooms, c.reader.Ready ∧ 0 < c.room := by
  induction rooms generalizing r with
  | nil => exact fun c mem => absurd mem List.not_mem_nil
  | cons room rooms ih =>
    obtain ⟨first, others⟩ := List.forall_mem_cons.mp positive
    have next : (Call.mk r room).after.Ready := Call.ready_after ready first
    exact List.forall_mem_cons.mpr ⟨⟨ready, first⟩, ih next others⟩

/-- Nothing comes out of an empty source any more. -/
theorem samplesLeft_afterCalls (ready : r.Ready) (ended : r.source.bytes = []) (positive : ∀ room ∈ rooms, 0 < room) :
    (r.afterCalls rooms).samplesLeft = [] := by
  induction rooms generalizing r with
  | nil =>
    unfold afterCalls samplesLeft
    rw [ended, List.append_nil, Pcm.ofList_of_length_lt ready.short]
  | cons room rooms ih =>
    obtain ⟨first, others⟩ := List.forall_mem_cons.mp positive
    obtain ⟨same, -⟩ := Call.cases (c := ⟨r, room⟩) ready first
    exact ih (Call.ready_after ready first) (List.append_eq_nil_iff.mp (same.trans ended)).2 others

theorem samplesLeft_eq_nil_of_ended (ready : r.Ready) (positive : ∀ room ∈ rooms, 0 < room)
    (ended : .ok [] ∈ (r.calls rooms).map Call.answer) : (r.afterCalls rooms).samplesLeft = [] := by
  induction rooms generalizing r with
  | nil => exact absurd ended List.not_mem_nil
  | cons room rooms ih =>
    obtain ⟨first, others⟩ := List.forall_mem_cons.mp positive
    have next : (Call.mk r room).after.Ready := Call.ready_after ready first
    unfold afterCalls
    obtain here | later := List.mem_cons.mp ended
    · exact samplesLeft_afterCalls next (Call.ended_of_answer ready first here.symm) others
    · exact ih next others later

theorem spared_sublist (ready : r.Ready) (positive : ∀ room ∈ rooms, 0 < room) :
    (r.spared rooms).Sublist r.source.bytes := by
  induction rooms generalizing r with
  | nil => exact List.Sublist.refl _
  | cons room rooms ih =>
    obtain ⟨first, others⟩ := List.forall_mem_cons.mp positive
    obtain ⟨same, -⟩ := Call.cases (c := ⟨r, room⟩) ready first
    have kept : (Call.mk r room).kept.Sublist (Call.mk r room).taken := by
      unfold Call.kept
      split
      · exact List.Sublist.refl _
      · exact List.nil_sublist _
    exact same ▸ kept.append (ih (Call.ready_after ready first) others)

/-- No byte is lost exactly if each call that fails has not taken any. -/
theorem spared_eq_iff (ready : r.Ready) (positive : ∀ room ∈ rooms, 0 < room) :
    r.spared rooms = r.source.bytes ↔ ∀ c ∈ r.calls rooms, ∀ e, c.answer = .error e → c.taken = [] := by
  induction rooms generalizing r with
  | nil => exact ⟨fun _ c mem => absurd mem List.not_mem_nil, fun _ => rfl⟩
  | cons room rooms ih =>
    obtain ⟨first, others⟩ := List.forall_mem_cons.mp positive
    have next : (Call.mk r room).after.Ready := Call.ready_after ready first
    obtain ⟨same, -⟩ := Call.cases (c := ⟨r, room⟩) ready first
    have rest := (spared_sublist next others).length_le
    unfold calls spared
    rw [List.forall_mem_cons, ← ih next others, ← same]
    unfold Call.kept
    cases (Call.mk r room).answer with
    | ok samples =>
      rw [List.append_cancel_left_eq]
      constructor
      · intro h
        refine ⟨fun e failed => ?_, h⟩
        cases failed
      · exact And.right
    | error e =>
      rw [List.nil_append]
      constructor
      · intro h
        have length := congrArg List.length h
        rw [List.length_append] at length
        have none : (Call.mk r room).taken = [] := List.eq_nil_of_length_eq_zero (by omega)
        refine ⟨fun _ _ => none, ?_⟩
        rw [h, none, List.nil_append]
      · rintro ⟨none, h⟩
        rw [h, none e rfl, List.nil_append]

/-- The samples of the calls, and then those that are left, are the samples of the spared bytes. -/
theorem samples_append_samplesLeft (ready : r.Ready) (positive : ∀ room ∈ rooms, 0 < room) :
    (r.calls rooms).flatMap Call.samples ++ (r.afterCalls rooms).samplesLeft =
      (Pcm.ofList (r.pending ++ r.spared rooms)).1 := by
  induction rooms generalizing r with
  | nil => rfl
  | cons room rooms ih =>
    obtain ⟨first, others⟩ := List.forall_mem_cons.mp positive
    have next : (Call.mk r room).after.Ready := Call.ready_after ready first
    have ended (nothing : (Call.mk r room).after.source.bytes = []) :
        (Call.mk r room).after.spared rooms = [] :=
      List.sublist_nil.mp (nothing ▸ spared_sublist next others)
    unfold calls afterCalls spared
    rw [List.flatMap_cons, List.append_assoc, ih next others,
      Call.samples_append (c := ⟨r, room⟩) ready first ended]

/-- A call of a source that never fails gives samples from the front of those that are left, or finds the end. -/
theorem Call.answer_of_reliable {c : Call} (ready : c.reader.Ready) (positive : 0 < c.room)
    (reliable : c.reader.source.Reliable) :
    c.after.source.Reliable ∧
      ((∃ ps, c.answer = .ok ps ∧ 1 ≤ ps.length ∧ ps.length ≤ c.room ∧
          c.reader.samplesLeft = ps ++ c.after.samplesLeft) ∨
        c.answer = .ok [] ∧ c.reader.samplesLeft = []) := by
  obtain ⟨same, -, suffix, outcome⟩ := Call.cases ready positive
  refine ⟨fun message mem => reliable message (suffix.subset mem), ?_⟩
  have left : c.reader.samplesLeft = (Pcm.ofList (c.reader.pending ++ c.taken ++ c.after.source.bytes)).1 := by
    unfold samplesLeft
    rw [← same, List.append_assoc]
  obtain ⟨answer, carried, enough, fits⟩ | ⟨answer, -, nothing, few⟩ | ⟨message, -, -, scheduled, -⟩ := outcome
  · have count := Pcm.length_samples (c.reader.pending ++ c.taken)
    refine .inl ⟨_, answer, by omega, by omega, ?_⟩
    rw [left, Pcm.ofList_append, ← carried]
    rfl
  · refine .inr ⟨answer, ?_⟩
    rw [left, nothing, List.append_nil, Pcm.ofList_of_length_lt few]
  · exact absurd scheduled (reliable message)

/-- Call after call, a source that never fails gives all its samples in order, and then the end is found. The
induction is on the number of samples that are left. -/
theorem exists_blocks (ready : r.Ready) (reliable : r.source.Reliable) {rooms : Nat → Nat}
    (positive : ∀ i, 0 < rooms i) :
    ∃ blocks : List (List Pcm),
      (r.calls ((List.range (blocks.length + 1)).map rooms)).map Call.answer = blocks.map .ok ++ [.ok []] ∧
        (∀ i (h : i < blocks.length), 1 ≤ blocks[i].length ∧ blocks[i].length ≤ rooms i) ∧
        blocks.flatten = r.samplesLeft := by
  induction count : r.samplesLeft.length using Nat.strong_induction_on generalizing r rooms with
  | _ n ih =>
    have following (k : Nat) : (List.range (k + 1)).map rooms =
        rooms 0 :: (List.range k).map fun i => rooms (i + 1) := by
      rw [List.range_succ_eq_map, List.map_cons, List.map_map]
      rfl
    obtain ⟨reliable', ⟨ps, answer, some, fits, left⟩ | ⟨answer, left⟩⟩ :=
      Call.answer_of_reliable (c := ⟨r, rooms 0⟩) ready (positive 0) reliable
    · have fewer : (Call.mk r (rooms 0)).after.samplesLeft.length < n := by
        rw [← count, left, List.length_append]
        omega
      obtain ⟨blocks, answers, lengths, samples⟩ := ih _ fewer (Call.ready_after ready (positive 0)) reliable'
        (fun i => positive (i + 1)) rfl
      refine ⟨ps :: blocks, ?_, ?_, ?_⟩
      · rw [following]
        unfold calls
        rw [List.map_cons, answer, List.length_cons, answers]
        rfl
      · rintro (_ | i) h
        · exact ⟨some, fits⟩
        · exact lengths i (Nat.lt_of_succ_lt_succ h)
      · rw [List.flatten_cons, samples, left]
    · refine ⟨[], ?_, fun i h => absurd h (Nat.not_lt_zero i), left.symm⟩
      rw [following]
      unfold calls
      rw [List.map_cons, answer]
      rfl

variable {source : ByteSource}

/-- A caller that reads until nothing comes back gets the samples in the whole stream: each block before has at least
one sample and no more than there is room for, the samples are those whose bytes the stream begins with, at most
three bytes are left over, and no call is given more bytes than there is room for. -/
theorem exists_blocks_calls_ofSource (flows : source.Flows) (reliable : source.Reliable) {rooms : Nat → Nat}
    (positive : ∀ i, 0 < rooms i) :
    ∃ blocks : List (List Pcm),
      ((ofSource source).calls ((List.range (blocks.length + 1)).map rooms)).map Call.answer =
          blocks.map .ok ++ [.ok []] ∧
        (∀ i (h : i < blocks.length), 1 ≤ blocks[i].length ∧ blocks[i].length ≤ rooms i) ∧
        blocks.flatten = (Pcm.ofList source.bytes).1 ∧
        blocks.flatten.flatMap Pcm.toBytes = source.bytes.take (4 * (source.bytes.length / 4)) ∧
        ∀ c ∈ (ofSource source).calls ((List.range (blocks.length + 1)).map rooms),
          (c.reader.pending ++ c.taken).length ≤ 4 * c.room := by
  have ready := ready_ofSource flows
  obtain ⟨blocks, answers, lengths, samples⟩ := exists_blocks ready reliable positive
  have whole : (ofSource source).samplesLeft = (Pcm.ofList source.bytes).1 := rfl
  refine ⟨blocks, answers, lengths, samples.trans whole, ?_, fun c mem => ?_⟩
  · rw [samples, whole, Pcm.flatMap_toBytes]
  · have rooms_positive : ∀ room ∈ (List.range (blocks.length + 1)).map rooms, 0 < room := by
      rintro room mem
      obtain ⟨i, -, rfl⟩ := List.mem_map.mp mem
      exact positive i
    obtain ⟨ready, positive⟩ := ready_of_mem_calls ready rooms_positive c mem
    exact Call.length_in_hand ready positive

/-- Two and a half samples, in reads of which none ends where a sample does. -/
def ragged : ByteSource := ⟨[0, 0, 128, 63, 0, 0, 0, 192, 1, 2], [.atMost 1, .atMost 2, .atMost 3]⟩

theorem exists_blocks_calls_ragged :
    ∃ blocks : List (List Pcm),
      ((ofSource ragged).calls ((List.range (blocks.length + 1)).map (· + 2))).map Call.answer =
          blocks.map .ok ++ [.ok []] ∧
        (∀ i (h : i < blocks.length), 1 ≤ blocks[i].length ∧ blocks[i].length ≤ i + 2) ∧
        blocks.flatten = [⟨0x3f800000⟩, ⟨0xc0000000⟩] := by
  have flows : ragged.Flows := by unfold ByteSource.Flows; decide
  have reliable : ragged.Reliable := by
    intro message mem
    simp [ragged] at mem
  have positive (i : Nat) : 0 < i + 2 := Nat.succ_pos _
  obtain ⟨blocks, answers, lengths, samples, -⟩ := exists_blocks_calls_ofSource flows reliable positive
  exact ⟨blocks, answers, lengths, samples.trans (by decide)⟩

/-- A caller that calls again after a failure gets the samples of the bytes that no failing call has taken; they are
all the bytes of the stream exactly if each failing call has taken none, and it never takes as many as make a sample. -/
theorem samples_eq_of_spared (flows : source.Flows) {rooms : List Nat} (positive : ∀ room ∈ rooms, 0 < room) :
    ((ofSource source).calls rooms).flatMap Call.samples ++ ((ofSource source).afterCalls rooms).samplesLeft =
        (Pcm.ofList ((ofSource source).spared rooms)).1 ∧
      (.ok [] ∈ ((ofSource source).calls rooms).map Call.answer →
        ((ofSource source).afterCalls rooms).samplesLeft = []) ∧
      ((ofSource source).spared rooms = source.bytes ↔
        ∀ c ∈ (ofSource source).calls rooms, ∀ e, c.answer = .error e → c.taken = []) ∧
      ∀ c ∈ (ofSource source).calls rooms, ∀ e, c.answer = .error e → (c.reader.pending ++ c.taken).length < 4 := by
  have ready := ready_ofSource flows
  refine ⟨samples_append_samplesLeft ready positive, samplesLeft_eq_nil_of_ended ready positive,
    spared_eq_iff ready positive, fun c mem e failed => ?_⟩
  obtain ⟨ready, positive⟩ := ready_of_mem_calls ready positive c mem
  obtain ⟨-, -, -, ⟨answer, -⟩ | ⟨answer, -⟩ | ⟨-, -, -, -, few⟩⟩ := Call.cases ready positive
  · cases answer.symm.trans failed
  · cases answer.symm.trans failed
  · exact few

/-- Two samples, of which the first and half of the second come at once; then a read fails. -/
def resumed : ByteSource := ⟨[0, 0, 128, 63, 0, 0, 0, 192], [.atMost 6, .failure "interrupted"]⟩

theorem samples_eq_of_spared_resumed :
    ((ofSource resumed).calls [2, 2, 2, 2]).map Call.answer =
        [.ok [⟨0x3f800000⟩], .error (.audioInput "interrupted"), .ok [⟨0xc0000000⟩], .ok []] ∧
      ((ofSource resumed).calls [2, 2, 2, 2]).flatMap Call.samples = (Pcm.ofList resumed.bytes).1 := by
  have flows : resumed.Flows := by unfold ByteSource.Flows; decide
  have answers : ((ofSource resumed).calls [2, 2, 2, 2]).map Call.answer =
      [.ok [⟨0x3f800000⟩], .error (.audioInput "interrupted"), .ok [⟨0xc0000000⟩], .ok []] := by decide +kernel
  have failing : ∀ c ∈ (ofSource resumed).calls [2, 2, 2, 2],
      c.answer = .error (.audioInput "interrupted") → c.taken = [] := by decide +kernel
  have positive : ∀ room ∈ [2, 2, 2, 2], 0 < room := by decide
  obtain ⟨samples, ended, spared, -⟩ := samples_eq_of_spared flows positive
  have all : (ofSource resumed).spared [2, 2, 2, 2] = resumed.bytes := by
    refine spared.mpr fun c mem e failed => ?_
    have mem' : c.answer ∈ ((ofSource resumed).calls [2, 2, 2, 2]).map Call.answer := List.mem_map_of_mem mem
    rw [answers, failed] at mem'
    obtain rfl : e = .audioInput "interrupted" := by simpa using mem'
    exact failing c mem failed
  rw [ended (by rw [answers]; decide), List.append_nil, all] at samples
  exact ⟨answers, samples⟩

/-- Two samples, of which three bytes come at once; then a read fails. -/
def halted : ByteSource := ⟨[0, 0, 128, 63, 0, 0, 0, 192], [.atMost 3, .failure "interrupted"]⟩

/-- A failing call loses the three bytes that it had taken, and what comes after it is no longer aligned. -/
theorem samples_halted :
    halted.Flows ∧
      ((ofSource halted).calls [1, 1, 1]).map Call.answer =
        [.error (.audioInput "interrupted"), .ok [⟨0x0000003f⟩], .ok []] ∧
      (Pcm.ofList halted.bytes).1 = [⟨0x3f800000⟩, ⟨0xc0000000⟩] ∧
      ((ofSource halted).calls [1, 1, 1]).flatMap Call.samples ≠ (Pcm.ofList halted.bytes).1 := by
  refine ⟨?_, ?_, ?_, ?_⟩
  · unfold ByteSource.Flows
    decide
  all_goals decide +kernel

end PcmReader

end AnalogCircuit
