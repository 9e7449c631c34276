import AnalogCircuit.Netlist.Value
/-!
# Tokens

A netlist is a sequence of tokens with blanks and comments between them. Line breaks are tokens; braces
nest and enclose an expression on one line. A number takes along every letter and digit behind it; one
that starts with a digit and denotes no value is a name, such as `1N4148`.

Each step of the scan takes at least one character, so the scan ends by the length of what is left.
-/

namespace AnalogCircuit.Netlist

open Numeral

/-! ## Tokens and positions -/

/-- What a token is. -/
inductive TokenKind where
  | identifier
  | number
  | directive
  | openParen
  | closeParen
  | equals
  | expression
  | newline
  | eof
deriving DecidableEq, Repr

/-- The word for a kind of token in messages. -/
def TokenKind.name : TokenKind → String
  | identifier => "Identifier"
  | number => "Number"
  | directive => "Directive"
  | openParen => "OpenParen"
  | closeParen => "CloseParen"
  | equals => "Equals"
  | expression => "Expression"
  | newline => "Newline"
  | eof => "Eof"

/-- A place in a text; lines and columns count characters from one. -/
structure Position where
  line : Nat
  column : Nat
deriving DecidableEq, Repr

/-- The beginning of a text. -/
def Position.start : Position := ⟨1, 1⟩

/-- The place behind a character. -/
def Position.next (p : Position) (c : Char) : Position :=
  if c = '\n' then ⟨p.line + 1, 1⟩ else ⟨p.line, p.column + 1⟩

/-- The place behind a text. -/
def Position.after (p : Position) (cs : List Char) : Position := cs.foldl Position.next p

/-- A token, where it starts, and its text; the text of an expression is without its braces. -/
structure Token where
  kind : TokenKind
  text : String
  position : Position
deriving DecidableEq, Repr

/-- The line of a token. -/
def Token.line (t : Token) : Nat := t.position.line

/-- The characters that a token stands for in the netlist. -/
def Token.source (t : Token) : List Char :=
  if t.kind = .expression then '\x7b' :: t.text.toList ++ ['\x7d'] else t.text.toList

/-! ## Blanks and comments -/

/-- Splits off blanks and comments. A comment goes on to the end of its line, the break excluded. -/
def splitTrivia (inComment : Bool) : List Char → List Char × List Char
  | [] => ([], [])
  | c :: cs =>
    let comment := inComment || c == '#' || c == ';'
    if c != '\n' && (comment || c == ' ' || c == '\t' || c == '\r') then
      let (trivia, rest) := splitTrivia comment cs
      (c :: trivia, rest)
    else ([], c :: cs)

theorem length_splitTrivia_le (b : Bool) (cs : List Char) :
    (splitTrivia b cs).2.length ≤ cs.length := by
  fun_induction splitTrivia b cs with
  | case1 => exact Nat.le_refl _
  | case2 _ _ _ _ _ _ _ _ ih => simp_all; omega
  | case3 => exact Nat.le_refl _

/-! ## Words, numbers and braces -/

/-- The characters of words. -/
def isWordChar (c : Char) : Bool := Text.isAlphanumeric c || c == '_'

/-- The text between two ends of a scan. -/
def between (cs rest : List Char) : List Char := cs.take (cs.length - rest.length)

/-- A number and all word characters behind it. -/
def spanNumber (cs : List Char) : List Char × List Char :=
  let rest := (Text.splitWhile isWordChar (spanSigned cs).2).2
  (between cs rest, rest)

/-- The text up to the brace that closes the innermost of `depth` open ones, on one line. -/
def spanBraces (depth : Nat) : List Char → Option (List Char × List Char)
  | [] => none
  | c :: cs =>
    if c = '\n' then none
    else if c = '\x7b' then (spanBraces (depth + 1) cs).map fun (t, r) => (c :: t, r)
    else if c = '\x7d' then
      match depth with
      | 0 => some ([], cs)
      | depth + 1 => (spanBraces depth cs).map fun (t, r) => (c :: t, r)
    else (spanBraces depth cs).map fun (t, r) => (c :: t, r)

theorem length_spanBraces_le {depth : Nat} {cs t r : List Char}
    (h : spanBraces depth cs = some (t, r)) : r.length ≤ cs.length := by
  fun_induction spanBraces depth cs generalizing t r with
  | case1 => cases h
  | case2 => cases h
  | case3 _ _ _ ih | case5 _ _ _ _ ih | case6 _ _ _ _ _ _ ih =>
    obtain ⟨⟨t', r'⟩, h', e⟩ := Option.map_eq_some_iff.mp h
    cases e
    exact Nat.le_succ_of_le (ih h')
  | case4 => cases h; exact Nat.le_succ _

theorem length_spanNumber_le {c : Char} {cs : List Char} (h : startsValue c = true) :
    (spanNumber (c :: cs)).2.length ≤ cs.length := by
  refine Nat.le_trans (Text.length_splitWhile_le ..) ?_
  unfold spanSigned
  split
  · next e => cases e; exact length_spanLiteral_le spanExponent_shrinks _
  · next e => cases e; exact length_spanLiteral_le spanExponent_shrinks _
  · next plus minus =>
    refine Nat.le_of_lt_succ (length_spanLiteral_lt spanExponent_shrinks ?_)
    simp only [startsValue, Bool.or_eq_true, beq_iff_eq] at h
    rcases h with ((h | h) | h) | h
    · exact .inl h
    · exact .inr h
    · exact absurd (congrArg (· :: cs) h) (plus cs)
    · exact absurd (congrArg (· :: cs) h) (minus cs)

/-! ## The scan -/

/-- A token that starts with the character `c`, and the rest of the text behind it. -/
abbrev Scanned (cs : List Char) : Type :=
  Except Error { r : Token × List Char // r.2.length ≤ cs.length }

/-- Reads a number; what denotes no value is a name if it starts with a digit. -/
def scanNumber (p : Position) (c : Char) (cs : List Char) (h : startsValue c = true) :
    Scanned cs := do
  let number := spanNumber (c :: cs)
  let token (kind : TokenKind) : { r : Token × List Char // r.2.length ≤ cs.length } :=
    ⟨(⟨kind, String.ofList number.1, p⟩, number.2), length_spanNumber_le h⟩
  match ← readQuantity number.1 with
  | some _ => return token .number
  | none =>
    if isDigit c then return token .identifier
    else throw (.lexical p.line p.column s!"malformed number '{String.ofList number.1}'")

/-- Reads a word whose first character is `c`. -/
def scanWord (kind : TokenKind) (p : Position) (c : Char) (cs : List Char) : Scanned cs :=
  let word := Text.splitWhile isWordChar cs
  .ok ⟨(⟨kind, String.ofList (c :: word.1), p⟩, word.2), Text.length_splitWhile_le ..⟩

/-- Reads the token that starts with the character `c` at a place. -/
def scanToken (p : Position) (c : Char) (cs : List Char) : Scanned cs :=
  let single (kind : TokenKind) : Scanned cs := .ok ⟨(⟨kind, c.toString, p⟩, cs), Nat.le_refl _⟩
  let startsWith (property : Char → Bool) : Bool := cs.head?.any property
  if c = '\n' then single .newline
  else if c = '(' then single .openParen
  else if c = ')' then single .closeParen
  else if c = '=' then single .equals
  else if c = '\x7b' then
    match h : spanBraces 0 cs with
    | some (text, rest) =>
      .ok ⟨(⟨.expression, String.ofList text, p⟩, rest), length_spanBraces_le h⟩
    | none => .error (.lexical p.line p.column "unterminated '\x7b'")
  else if h : c = '.' then
    if startsWith isDigit then scanNumber p c cs (by rw [h]; decide)
    else scanWord .directive p c cs
  else if h : (c == '+' || c == '-') && startsWith (fun d => isDigit d || d == '.') then
    scanNumber p c cs (by
      simp only [Bool.and_eq_true, Bool.or_eq_true] at h
      simp only [startsValue, Bool.or_eq_true]
      rcases h.1 with h | h
      · exact .inl (.inr h)
      · exact .inr h)
  else if h : isDigit c then scanNumber p c cs (by simp only [startsValue, h, Bool.true_or])
  else if Text.isAlphabetic c || c == '_' then scanWord .identifier p c cs
  else .error (.lexical p.line p.column s!"unexpected character '{c.toString}'")

/-- The tokens of a text from a place on, up to its end or to the first fault. -/
def tokensFrom (p : Position) (cs : List Char) : List Token × Option Error :=
  let trivia := splitTrivia false cs
  let p := p.after trivia.1
  match _h : trivia.2 with
  | [] => ([⟨.eof, "", p⟩], none)
  | c :: rest =>
    match scanToken p c rest with
    | .error e => ([], some e)
    | .ok ⟨(t, rest'), _h'⟩ =>
      let (ts, fault) := tokensFrom (p.after t.source) rest'
      (t :: ts, fault)
termination_by cs.length
decreasing_by
  have := length_splitTrivia_le false cs
  have : trivia.2.length = rest.length + 1 := congrArg List.length _h
  simp only [trivia] at this
  simp only at _h'
  omega

/-- The tokens of a netlist, the last one marking the end, and the fault that stopped the scan. -/
def tokens (text : String) : List Token × Option Error := tokensFrom .start text.toList

end AnalogCircuit.Netlist
