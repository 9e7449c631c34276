import AnalogCircuit.Error
import AnalogCircuit.Expr.Domain
import AnalogCircuit.Expr.Text
import AnalogCircuit.Program.Basic
/-!
# Emission of instructions

Instructions for expressions, equal subexpressions being computed once. While a loop is open, the
instructions that depend on the iterated registers form its body, and all others are put in front of it.
When the loop is closed, what its body computed is forgotten, for the last correction has made it stale.

A term with a negative coefficient is subtracted and a factor with a negative exponent divided by;
neither is larger than the expression from which it comes, so emission ends by size.
-/

namespace AnalogCircuit

variable {α : Type} [Scalar α]

/-! ## State -/

/-- What has been emitted. -/
structure Emission (α : Type) where
  /-- The first register that is not yet in use. -/
  next : Reg
  constants : List (Reg × α)
  /-- The expressions whose values are in registers. -/
  computed : List (Expr α × Reg)
  /-- The registers that change from one pass of the open loop to the next. -/
  varying : List Reg
  /-- The body of the open loop. -/
  body? : Option (List Instruction)
  /-- Instructions outside loops that belong to no block yet. -/
  pending : List Instruction

/-- A computation that emits instructions. -/
abbrev Emit (α β : Type) : Type := StateT (Emission α) (Except Error) β

namespace Emission

/-- Nothing is emitted yet, and the registers from `first` on are free. -/
def start (first : Reg) : Emission α := ⟨first, [], [], [], none, []⟩

/-- The register that holds the value of an expression. -/
def register? (s : Emission α) (e : Expr α) : Option Reg :=
  (s.computed.find? (·.1 == e)).map (·.2)

/-! ## Loops and blocks -/

/-- Opens a loop that iterates on some registers. -/
def openLoop (s : Emission α) (varying : List Reg) : Emission α :=
  { s with varying, body? := some [] }

/-- Closes the open loop: its body, and what is known behind it. -/
def closeLoop (s : Emission α) : List Instruction × Emission α :=
  (s.body?.getD [], { s with
    computed := s.computed.filter fun c => !s.varying.contains c.2
    varying := []
    body? := none })

/-- Moves the pending instructions into a block, if there are any. -/
def flush (s : Emission α) : List Block × Emission α :=
  (if s.pending.isEmpty then [] else [.straight s.pending], { s with pending := [] })

/-- Copies a register, unless it is the target itself. -/
def copy (s : Emission α) (target source : Reg) : Emission α :=
  if target = source then s
  else { s with pending := s.pending ++ [⟨target, .copy source⟩] }

/-! ## Single instructions -/

/-- Appends an operation that writes the next free register. -/
def push (s : Emission α) (operation : Operation) : Reg × Emission α :=
  let instruction : Instruction := ⟨s.next, operation⟩
  match s.body?, operation.operands.any s.varying.contains with
  | some body, true =>
    (s.next, { s with
      next := s.next + 1, varying := s.next :: s.varying, body? := some (body ++ [instruction]) })
  | _, _ => (s.next, { s with next := s.next + 1, pending := s.pending ++ [instruction] })

omit [Scalar α] in
/-- An operation is put into the body of the open loop if it reads what varies there, and in front of it otherwise. -/
theorem push_cases (s : Emission α) (o : Operation) :
    (∃ body, s.body? = some body ∧ s.push o = (s.next, { s with
      next := s.next + 1, varying := s.next :: s.varying, body? := some (body ++ [⟨s.next, o⟩]) })) ∨
    (∀ r ∈ o.operands, r ∈ s.varying → s.body? = none) ∧
      s.push o = (s.next, { s with next := s.next + 1, pending := s.pending ++ [⟨s.next, o⟩] }) := by
  unfold push
  dsimp only
  split
  · next body isOpen _ => exact .inl ⟨body, isOpen, rfl⟩
  · next other =>
    refine .inr ⟨fun r hr varies => ?_, rfl⟩
    cases isOpen : s.body? with
    | none => rfl
    | some body => exact absurd (List.any_eq_true.mpr ⟨r, hr, List.contains_iff_mem.mpr varies⟩) (other body isOpen)

/-- The register of a constant, which may be one that holds it already. -/
def constant (s : Emission α) (value : α) : Reg × Emission α :=
  match s.constants.find? fun c => Scalar.order c.2 value == .eq with
  | some c => (c.1, s)
  | none => (s.next, { s with next := s.next + 1, constants := s.constants ++ [(s.next, value)] })

/-- Remembers the register of an expression. -/
def remember (s : Emission α) (e : Expr α) (r : Reg) : Emission α :=
  { s with computed := (e, r) :: s.computed }

end Emission

/-! ## Expressions -/

namespace Emit

/-- Emits an operation. -/
def operation (o : Operation) : Emit α Reg := fun s => .ok (s.push o)

/-- Provides a constant. -/
def constant (value : α) : Emit α Reg := fun s => .ok (s.constant value)

/-- Remembers the register of an expression. -/
def remember (e : Expr α) (r : Reg) : Emit α Reg := fun s => .ok (r, s.remember e r)

/-- The exponents that are powered by multiplication alone: the integers up to 64 in size. -/
def smallExponent? : Expr α → Option Int
  | .num v =>
    if Domain.integer.contains (.num v) && Scalar.le (Scalar.abs v) 64.0 then some (Scalar.toInt v)
    else none
  | _ => none

/-- Emits a power, its base being in a register; `exponent` provides that of the exponent. -/
def power (base : Reg) (e : Expr α) (exponent : Emit α Reg) : Emit α Reg :=
  match smallExponent? e with
  | some n => operation (.powInt base n)
  | none =>
    if e.constant?.any (Scalar.eq · 0.5) then operation (.unary .sqrt base)
    else do operation (.pow base (← exponent))

/-- What a factor with a negative constant exponent divides by. -/
def divisor? : Expr α → Option (Expr α)
  | .power b (.num e) =>
    if Scalar.lt e 0 then
      some (if Scalar.isOne (-e) then b else .power b (.mkNum (-e)))
    else none
  | _ => none

/-- Only a power with a negative constant exponent divides by something. -/
theorem exists_of_divisor? {f d : Expr α} (h : divisor? f = some d) : ∃ b e, f = .power b (.num e) ∧
    Scalar.lt e 0 = true ∧ d = if Scalar.isOne (-e) then b else .power b (.mkNum (-e)) := by
  unfold divisor? at h
  split at h
  · next b e =>
    split at h
    · next negative => exact ⟨b, e, rfl, negative, (Option.some.inj h).symm⟩
    · cases h
  · cases h

theorem size_of_divisor? {e d : Expr α} (h : divisor? e = some d) : d.size ≤ e.size := by
  obtain ⟨b, e, rfl, -, rfl⟩ := exists_of_divisor? h
  split <;> simp only [Expr.size, Expr.mkNum] <;> omega

/-- What a product divides by. -/
def divisors (fs : List (Expr α)) : List (Expr α) := fs.filterMap divisor?

/-- The factors by which a product does not divide. -/
def dividends (fs : List (Expr α)) : List (Expr α) := fs.filter fun f => (divisor? f).isNone

theorem sizeList_divisors_le (fs : List (Expr α)) :
    Expr.sizeList (divisors fs) ≤ Expr.sizeList fs := by
  unfold divisors
  induction fs with
  | nil => exact Nat.le_refl _
  | cons f fs ih =>
    rw [List.filterMap_cons]
    split
    · simp only [Expr.sizeList]; omega
    · next d h =>
      have := size_of_divisor? h
      simp only [Expr.sizeList]; omega

theorem sizeList_dividends_le (fs : List (Expr α)) :
    Expr.sizeList (dividends fs) ≤ Expr.sizeList fs := by
  unfold dividends
  induction fs with
  | nil => exact Nat.le_refl _
  | cons f fs ih =>
    rw [List.filter_cons]
    split <;> simp only [Expr.sizeList] <;> omega

mutual

/-- Provides the value of an expression in a register; `registerOf` has the registers of symbols. -/
def expr (registerOf : Symbol → Option Reg) (e : Expr α) : Emit α Reg := do
  match (← get).register? e with
  | some r => return r
  | none =>
    match e with
    | .num v => constant v
    | .sym s =>
      match registerOf s with
      | some r => return r
      | none => throw (.undefinedSymbol s.text)
    | .sum ts => remember (.sum ts) (← sum registerOf none ts)
    | .product fs => do
      let dividend ← chain registerOf none (dividends fs)
      if (divisors fs).isEmpty then remember (.product fs) dividend
      else
        let divisor ← chain registerOf none (divisors fs)
        remember (.product fs) (← operation (.div dividend divisor))
    | .power b e => do
      let base ← expr registerOf b
      remember (.power b e) (← power base e (expr registerOf e))
    | .call f args =>
      if args.length ≠ f.arity then throw (.arityMismatch f.name f.arity args.length)
      else match args with
        | [a] => do
          remember (.call f [a]) (← operation (.unary f (← expr registerOf a)))
        | [a, b] => do
          let a' ← expr registerOf a
          let b' ← expr registerOf b
          remember (.call f [a, b]) (← operation (.binary f a' b'))
        | _ => throw (.unsupportedFunction f.name)
    | .apply f _ => throw (.unsupportedFunction f)
    | .compare c a b => do
      let a' ← expr registerOf a
      let b' ← expr registerOf b
      remember (.compare c a b) (← operation (.compare c a' b'))
    | .select c a b => do
      let c' ← expr registerOf c
      let a' ← expr registerOf a
      let b' ← expr registerOf b
      remember (.select c a b) (← operation (.select c' a' b'))
    | .derivative x t => throw (.unsupportedOperator (Expr.derivative x t).text)
    | .integral x t => throw (.unsupportedOperator (Expr.integral x t).text)
termination_by 2 * e.size
decreasing_by
  all_goals simp only [Expr.size, Expr.sizeList]
  case _ => omega
  case _ => have := sizeList_dividends_le fs; omega
  case _ => have := sizeList_divisors_le fs; omega
  all_goals omega

/-- Provides the sum of some terms and of what is in a register already. -/
def sum (registerOf : Symbol → Option Reg) (total : Option Reg) :
    (terms : List (Expr α)) → Emit α Reg
  | [] =>
    match total with
    | some r => return r
    | none => constant 0
  | t :: ts =>
    match _h : t.subtrahend? with
    | some s => do
      let r ← expr registerOf s
      match total with
      | none => sum registerOf (some (← operation (.neg r))) ts
      | some a => sum registerOf (some (← operation (.sub a r))) ts
    | none => do
      let r ← expr registerOf t
      match total with
      | none => sum registerOf (some r) ts
      | some a => sum registerOf (some (← operation (.add a r))) ts
termination_by terms => 2 * Expr.sizeList terms + 1
decreasing_by
  all_goals have := Expr.size_pos t
  case _ => have := Expr.size_of_subtrahend? _h; simp only [Expr.sizeList]; omega
  all_goals simp only [Expr.sizeList]; omega

/-- Provides the product of some factors and of what is in a register already. -/
def chain (registerOf : Symbol → Option Reg) (total : Option Reg) :
    (factors : List (Expr α)) → Emit α Reg
  | [] =>
    match total with
    | some r => return r
    | none => constant 1
  | f :: fs => do
    let r ← expr registerOf f
    match total with
    | none => chain registerOf (some r) fs
    | some a => chain registerOf (some (← operation (.mul a r))) fs
termination_by factors => 2 * Expr.sizeList factors + 1
decreasing_by
  all_goals have := Expr.size_pos f
  all_goals simp only [Expr.sizeList]; omega

end

end Emit

end AnalogCircuit
