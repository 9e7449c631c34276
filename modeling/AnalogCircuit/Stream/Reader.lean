import AnalogCircuit.Error
import AnalogCircuit.Stream.Pcm
/-!
# Reading samples

Bytes come in pieces that need not end where samples do. A reader keeps the bytes of an incomplete
sample for the next block. What a block has taken is kept only if the block succeeds: bytes of an
incomplete sample are lost with a read that fails.

Every read that hands out bytes shortens the source, so the loop that waits for a whole sample ends.
-/

namespace AnalogCircuit

/-! ## Sources -/

/-- How a source answers one call. -/
inductive Delivery where
  /-- At most so many bytes; none looks like the end. -/
  | atMost (bytes : Nat)
  | failure (message : String)
deriving DecidableEq, Repr

/-- Bytes that are still to come, and how the next calls go; later calls hand out all that is wanted. -/
structure ByteSource where
  bytes : List UInt8
  schedule : List Delivery

namespace ByteSource

/-- Hands out the next bytes, at most as many as are wanted. -/
def read (s : ByteSource) (wanted : Nat) : Except String (List UInt8) × ByteSource :=
  match s.schedule with
  | .failure message :: schedule => (.error message, { s with schedule })
  | .atMost n :: schedule =>
    (.ok (s.bytes.take (min n wanted)), ⟨s.bytes.drop (min n wanted), schedule⟩)
  | [] => (.ok (s.bytes.take wanted), ⟨s.bytes.drop wanted, []⟩)

/-- How a read goes: it fails as scheduled, or it hands out bytes from the front; none only if none is wanted or that
is scheduled. -/
inductive Delivers (s : ByteSource) (wanted : Nat) : Except String (List UInt8) → ByteSource → Prop
  | failure {message : String} {schedule : List Delivery} (scheduled : s.schedule = .failure message :: schedule) :
      Delivers s wanted (.error message) { s with schedule }
  | bytes {n : Nat} {schedule : List Delivery} (le : n ≤ wanted) (later : schedule <:+ s.schedule)
      (empty : n = 0 → wanted = 0 ∨ .atMost 0 ∈ s.schedule) :
      Delivers s wanted (.ok (s.bytes.take n)) ⟨s.bytes.drop n, schedule⟩

theorem delivers_of_read {s s' : ByteSource} {wanted : Nat} {r : Except String (List UInt8)}
    (h : s.read wanted = (r, s')) : s.Delivers wanted r s' := by
  unfold read at h
  split at h
  · next scheduled =>
    cases h
    exact .failure scheduled
  · next n schedule scheduled =>
    cases h
    refine .bytes (Nat.min_le_right ..) (scheduled ▸ List.suffix_cons ..) fun none => ?_
    rw [scheduled]
    rcases Nat.min_eq_zero_iff.mp none with rfl | rfl
    · exact .inr List.mem_cons_self
    · exact .inl rfl
  · cases h
    exact .bytes (Nat.le_refl _) List.nil_suffix .inl

/-- What is handed out and what is left make up what there was. -/
theorem length_read {s s' : ByteSource} {wanted : Nat} {bytes : List UInt8}
    (h : s.read wanted = (.ok bytes, s')) : bytes.length + s'.bytes.length = s.bytes.length := by
  cases delivers_of_read h with
  | bytes => rw [← List.length_append, List.take_append_drop]

end ByteSource

/-! ## Blocks of samples -/

/-- A source and the bytes of an incomplete sample that came from it. -/
structure PcmReader where
  source : ByteSource
  pending : List UInt8

namespace PcmReader

/-- A reader that has not read anything. -/
def ofSource (source : ByteSource) : PcmReader := ⟨source, []⟩

/-- The number of bytes that have not become samples. -/
def remaining (r : PcmReader) : Nat := r.pending.length + r.source.bytes.length

/-- Reads until a whole sample is there or the source ends, into room for `wanted` bytes. -/
def gather (wanted : Nat) (filled : List UInt8) (s : ByteSource) :
    Except Error (Option (List UInt8)) × ByteSource :=
  if 4 ≤ filled.length then (.ok (some filled), s)
  else if wanted < filled.length then (.error .noRoom, s)
  else
    match _h : s.read (wanted - filled.length) with
    | (.error message, s) => (.error (.audioInput message), s)
    | (.ok [], s) => (.ok none, s)
    | (.ok (b :: bytes), s) => gather wanted (filled ++ b :: bytes) s
termination_by s.bytes.length
decreasing_by
  have := ByteSource.length_read _h
  simp only [List.length_cons] at this
  omega

/-- Gathering neither makes nor loses bytes. -/
theorem length_gather {wanted : Nat} {filled bytes : List UInt8} {s s' : ByteSource}
    (h : gather wanted filled s = (.ok (some bytes), s')) :
    bytes.length + s'.bytes.length = filled.length + s.bytes.length := by
  fun_induction gather wanted filled s with
  | case1 => cases h; rfl
  | case2 => cases h
  | case3 => cases h
  | case4 => cases h
  | case5 _ _ _ _ _ _ _ e ih =>
    have := ByteSource.length_read e
    rw [ih h, List.length_append]
    omega

/-- Reads at least one and at most `room` samples; none at the end of the source. -/
def readBlock (r : PcmReader) (room : Nat) : Except Error (List Pcm) × PcmReader :=
  match gather (4 * room) r.pending r.source with
  | (.error e, source) => (.error e, { r with source })
  | (.ok none, source) => (.ok [], { r with source })
  | (.ok (some bytes), source) =>
    let (samples, pending) := Pcm.ofList bytes
    (.ok samples, ⟨source, pending⟩)

/-- Every sample takes four bytes. -/
theorem remaining_readBlock {r r' : PcmReader} {room : Nat} {p : Pcm} {ps : List Pcm}
    (h : r.readBlock room = (.ok (p :: ps), r')) : r'.remaining < r.remaining := by
  unfold readBlock at h
  split at h
  · cases h
  · cases h
  · next bytes source e =>
    have gathered := length_gather e
    have whole := Pcm.length_ofList bytes
    simp only [Prod.mk.injEq, Except.ok.injEq] at h
    obtain ⟨samples, rfl⟩ := h
    rw [samples] at whole
    simp only [remaining, List.length_cons] at *
    omega

end PcmReader

end AnalogCircuit
