import AnalogCircuit.Error
import AnalogCircuit.Expr.Build
import AnalogCircuit.Expr.Scan
/-!
# Reading expressions

    expression = additive [comparison additive]
    additive   = term {('+' | '-') term}
    term       = unary {('*' | '/') unary}
    unary      = ('-' | '+') unary | power
    power      = primary ['^' unary]
    primary    = number | name ['(' [expression {',' expression}] ')'] | '(' expression ')'

Every part takes at least one character; its type says so, and the recursion ends by the length of what
is left and, where a part starts with another one, by the position in the list above. A failure keeps the
text in front of which it was found.
-/

namespace AnalogCircuit.Expr

namespace Grammar

variable {α : Type} [Scalar α]

/-- A fault and the text that was left when it was found. -/
structure Failure where
  fault : Fault
  rest : List Char

/-- A value read from the start of `cs`, and a shorter rest. -/
abbrev Parsed (β : Type) (cs : List Char) : Type :=
  Except Failure { r : β × List Char // r.2.length < cs.length }

/-- A value read from the start of `cs` and a rest that may be all of it. -/
abbrev ParsedAtMost (β : Type) (cs : List Char) : Type :=
  Except Failure { r : β × List Char // r.2.length ≤ cs.length }

/-! ## Tokens -/

/-- The comparison at the start of a text; the longer operators come first. -/
def comparison? : List Char → Option (Comparison × List Char)
  | '=' :: '=' :: r => some (.eq, r)
  | '!' :: '=' :: r => some (.ne, r)
  | '<' :: '=' :: r => some (.le, r)
  | '>' :: '=' :: r => some (.ge, r)
  | '<' :: r => some (.lt, r)
  | '>' :: r => some (.gt, r)
  | _ => none

theorem length_comparison?_lt {cs r : List Char} {c : Comparison}
    (h : comparison? cs = some (c, r)) : r.length < cs.length := by
  unfold comparison? at h
  split at h <;> cases h <;> simp only [List.length_cons] <;> omega

/-- A token behind white space leaves less than there was. -/
theorem length_lt_of_skipBlank {cs after : List Char} {c : Char}
    (h : skipBlank cs = c :: after) : after.length < cs.length := by
  have := length_skipBlank_le cs
  rw [h] at this
  exact this

/-- What a name without arguments denotes. -/
def ofWord (w : Word) : Expr α :=
  let name := String.ofList w.name
  if name = "pi" then mkNum 3.141592653589793
  else if name = "e" then mkNum 2.718281828459045
  else if w.previous then sym (Symbol.named name).previous
  else named name

/-- What a name with arguments denotes. -/
def ofCall (name : String) (args : List (Expr α)) : Except Fault (Expr α) :=
  if name = "if" then
    match args with
    | [c, a, b] => .ok (mkSelect c a b)
    | _ => .error .conditionArguments
  else
    match name, args with
    | "D", [x, sym t] => .ok (mkDerivative x t)
    | "D", [_, _] => .error .timeArgument
    | name, args =>
      match Builtin.find? name with
      | some f => if f.arity = args.length then .ok (mkCall f args) else .error (.wrongArity f)
      | none => .ok (apply name args)

/-! ## Grammar -/

mutual

def expression (cs : List Char) : Parsed (Expr α) cs := do
  let ⟨(lhs, rest), h⟩ ← additive cs
  have h : rest.length < cs.length := h
  match hc : comparison? (skipBlank rest) with
  | none => return ⟨(lhs, rest), h⟩
  | some (c, after) =>
    have := Nat.lt_of_lt_of_le (length_comparison?_lt hc) (length_skipBlank_le rest)
    let ⟨(rhs, rest), h'⟩ ← additive after
    have h' : rest.length < after.length := h'
    return ⟨(mkCompare c lhs rhs, rest), by dsimp only; omega⟩
termination_by (cs.length, 6)

def additive (cs : List Char) : Parsed (Expr α) cs := do
  let ⟨(first, rest), h⟩ ← term cs
  have h : rest.length < cs.length := h
  let ⟨(terms, rest'), h'⟩ ← additiveRest rest
  have h' : rest'.length ≤ rest.length := h'
  return ⟨(mkSum (first :: terms), rest'), by dsimp only; omega⟩
termination_by (cs.length, 5)

/-- The terms after the first one, those behind a minus sign negated. -/
def additiveRest (cs : List Char) : ParsedAtMost (List (Expr α)) cs := do
  match hs : skipBlank cs with
  | '+' :: after =>
    have := length_lt_of_skipBlank hs
    let ⟨(t, rest), h⟩ ← term after
    have h : rest.length < after.length := h
    let ⟨(ts, rest'), h'⟩ ← additiveRest rest
    have h' : rest'.length ≤ rest.length := h'
    return ⟨(t :: ts, rest'), by dsimp only; omega⟩
  | '-' :: after =>
    have := length_lt_of_skipBlank hs
    let ⟨(t, rest), h⟩ ← term after
    have h : rest.length < after.length := h
    let ⟨(ts, rest'), h'⟩ ← additiveRest rest
    have h' : rest'.length ≤ rest.length := h'
    return ⟨(-t :: ts, rest'), by dsimp only; omega⟩
  | _ => return ⟨([], cs), Nat.le_refl _⟩
termination_by (cs.length, 0)

def term (cs : List Char) : Parsed (Expr α) cs := do
  let ⟨(first, rest), h⟩ ← unary cs
  have h : rest.length < cs.length := h
  let ⟨(e, rest'), h'⟩ ← termRest first rest
  have h' : rest'.length ≤ rest.length := h'
  return ⟨(e, rest'), by dsimp only; omega⟩
termination_by (cs.length, 4)

/-- Multiplies and divides `acc` by the factors that follow. -/
def termRest (acc : Expr α) (cs : List Char) : ParsedAtMost (Expr α) cs := do
  match hs : skipBlank cs with
  | '*' :: after =>
    have := length_lt_of_skipBlank hs
    let ⟨(f, rest), h⟩ ← unary after
    have h : rest.length < after.length := h
    let ⟨(e, rest'), h'⟩ ← termRest (acc * f) rest
    have h' : rest'.length ≤ rest.length := h'
    return ⟨(e, rest'), by dsimp only; omega⟩
  | '/' :: after =>
    have := length_lt_of_skipBlank hs
    let ⟨(f, rest), h⟩ ← unary after
    have h : rest.length < after.length := h
    let ⟨(e, rest'), h'⟩ ← termRest (acc / f) rest
    have h' : rest'.length ≤ rest.length := h'
    return ⟨(e, rest'), by dsimp only; omega⟩
  | _ => return ⟨(acc, cs), Nat.le_refl _⟩
termination_by (cs.length, 0)

def unary (cs : List Char) : Parsed (Expr α) cs := do
  match hs : skipBlank cs with
  | '-' :: after =>
    have := length_lt_of_skipBlank hs
    let ⟨(e, rest), h⟩ ← unary after
    have h : rest.length < after.length := h
    return ⟨(-e, rest), by dsimp only; omega⟩
  | '+' :: after =>
    have := length_lt_of_skipBlank hs
    let ⟨(e, rest), h⟩ ← unary after
    have h : rest.length < after.length := h
    return ⟨(e, rest), by dsimp only; omega⟩
  | _ => power cs
termination_by (cs.length, 3)

def power (cs : List Char) : Parsed (Expr α) cs := do
  let ⟨(base, rest), h⟩ ← primary cs
  have h : rest.length < cs.length := h
  match hs : skipBlank rest with
  | '^' :: after =>
    have := length_lt_of_skipBlank hs
    let ⟨(exponent, rest'), h'⟩ ← unary after
    have h' : rest'.length < after.length := h'
    return ⟨(mkPow base exponent, rest'), by dsimp only; omega⟩
  | _ => return ⟨(base, rest), h⟩
termination_by (cs.length, 2)

def primary (cs : List Char) : Parsed (Expr α) cs := do
  match hs : skipBlank cs with
  | [] => throw ⟨.unexpectedEnd, []⟩
  | '(' :: after =>
    have := length_lt_of_skipBlank hs
    let ⟨(e, rest), h⟩ ← expression after
    have h : rest.length < after.length := h
    match hr : skipBlank rest with
    | ')' :: rest' =>
      have := length_lt_of_skipBlank hr
      return ⟨(e, rest'), by dsimp only; omega⟩
    | rest => throw ⟨.expected ')', rest⟩
  | c :: after =>
    have start : (c :: after).length ≤ cs.length := hs ▸ length_skipBlank_le cs
    if hn : startsNumber c then
      match hq : spanQuantity (c :: after) with
      | none => throw ⟨.malformedNumber, c :: after⟩
      | some (q, rest) =>
        return ⟨(mkNum q.value, rest), Nat.lt_of_lt_of_le (length_spanQuantity_lt hn hq) start⟩
    else if hw : startsName c then
      match hq : spanWord (c :: after) with
      | none => throw ⟨.unterminatedBracket, (c :: after).dropWhile isNameChar⟩
      | some w =>
        have shorter := Nat.lt_of_lt_of_le (length_spanWord_lt hw hq) start
        match hr : skipBlank w.rest with
        | '(' :: inner =>
          have := length_lt_of_skipBlank hr
          let ⟨(args, rest), h⟩ ← arguments inner
          have h : rest.length < inner.length := h
          match ofCall (String.ofList w.name) args with
          | .ok e => return ⟨(e, rest), by dsimp only; omega⟩
          | .error fault => throw ⟨fault, c :: after⟩
        | _ => return ⟨(ofWord w, w.rest), shorter⟩
    else throw ⟨.unexpectedCharacter, c :: after⟩
termination_by (cs.length, 1)

/-- The arguments behind an opening parenthesis. -/
def arguments (cs : List Char) : Parsed (List (Expr α)) cs := do
  match hs : skipBlank cs with
  | ')' :: rest => return ⟨([], rest), length_lt_of_skipBlank hs⟩
  | _ => argumentsRest cs
termination_by (cs.length, 8)

/-- One argument or more, up to the closing parenthesis. -/
def argumentsRest (cs : List Char) : Parsed (List (Expr α)) cs := do
  let ⟨(e, rest), h⟩ ← expression cs
  have h : rest.length < cs.length := h
  match hs : skipBlank rest with
  | ',' :: after =>
    have := length_lt_of_skipBlank hs
    let ⟨(es, rest'), h'⟩ ← argumentsRest after
    have h' : rest'.length < after.length := h'
    return ⟨(e :: es, rest'), by dsimp only; omega⟩
  | ')' :: rest' =>
    have := length_lt_of_skipBlank hs
    return ⟨([e], rest'), by dsimp only; omega⟩
  | rest => throw ⟨.expected ')', rest⟩
termination_by (cs.length, 7)

end

end Grammar

/-! ## Whole texts -/

variable {α : Type} [Scalar α]

/-- The number of bytes that a text takes. -/
def byteLength (cs : List Char) : Nat := cs.foldr (fun c n => c.utf8Size + n) 0

/-- Reads a whole text as an expression. Offsets of faults are in bytes. -/
def parse (text : String) : Except Error (Expr α) :=
  let cs := text.toList
  let fail (f : Grammar.Failure) : Error :=
    .expression (byteLength cs - byteLength f.rest) f.fault.message
  match Grammar.expression cs with
  | .error f => .error (fail f)
  | .ok ⟨(e, rest), _⟩ =>
    match skipBlank rest with
    | [] => .ok e
    | rest => .error (fail ⟨.trailingInput, rest⟩)

end AnalogCircuit.Expr
