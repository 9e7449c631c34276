/-!
# Symbols

A symbol names a quantity of a circuit (an unknown, an input, a parameter or the time) at the sample
that is being solved for or at the one before.
-/

namespace AnalogCircuit

/-- The sample to which a symbol refers. -/
inductive Sample where
  | current
  | previous
deriving DecidableEq, Repr, Hashable

/-- The current sample comes first. -/
def Sample.rank : Sample → Nat
  | current => 0
  | previous => 1

/-- A named quantity at one of two samples. -/
structure Symbol where
  name : String
  sample : Sample
deriving DecidableEq, Repr, Hashable

namespace Symbol

/-- The quantity `name` at the current sample. -/
def named (name : String) : Symbol := ⟨name, .current⟩

/-- The time `t`. -/
def time : Symbol := named "t"

/-- The same quantity one sample earlier. -/
def previous (s : Symbol) : Symbol := { s with sample := .previous }

/-- The same quantity at the current sample. -/
def current (s : Symbol) : Symbol := { s with sample := .current }

/-- The time `t0` of the previous sample. -/
def previousTime : Symbol := time.previous

/-- Symbols are ordered by name, then by sample. -/
def order (a b : Symbol) : Ordering :=
  (compare a.name b.name).then (compare a.sample.rank b.sample.rank)

/-- The written form: `x` now, `x[t0]` one sample earlier; the earlier time is `t0` itself. -/
def text (s : Symbol) : String :=
  match s.sample with
  | .current => s.name
  | .previous => if s.name = time.name then s.name ++ "0" else s.name ++ "[t0]"

end Symbol

end AnalogCircuit
