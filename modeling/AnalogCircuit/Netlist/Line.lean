import AnalogCircuit.Netlist.Token
import AnalogCircuit.Text.Quoted
/-!
# Lines of a netlist

The tokens of a netlist are read line by line. A line that is being read is the list of the tokens still
to come, what ends the line, and the fault of the scan if that is what comes behind them. Reading past a
token looks at the next one, so a fault behind a token is reported as soon as that token is read, before
the token itself is judged.

A reader returns the rest of its line together with the fact that the rest is shorter; loops over a line
end for that reason.
-/

namespace AnalogCircuit.Netlist

/-- What is left of a line. -/
structure Line where
  /-- The number of the line, from one. -/
  number : Nat
  tokens : List Token
  /-- The token that ends the line: a line break, or the end of the text. -/
  ending : Token
  /-- The fault of the scan, if it comes in place of the ending. -/
  fault : Option Error

namespace Line

/-! ## From tokens to lines -/

/-- The lines of a sequence of tokens that a fault may have cut short. -/
def ofTokens (fault : Option Error) : List Token → List Line
  | [] => [⟨1, [], ⟨.eof, "", .start⟩, fault⟩]
  | t :: ts =>
    match t.kind with
    | .newline => ⟨t.line, [], t, none⟩ :: ofTokens fault ts
    | .eof => [⟨t.line, [], t, none⟩]
    | _ =>
      match ofTokens fault ts with
      | l :: ls => { l with number := t.line, tokens := t :: l.tokens } :: ls
      | [] => [⟨t.line, [t], ⟨.eof, "", t.position⟩, fault⟩]

/-- The lines of a text. -/
def ofText (text : String) : List Line :=
  let (ts, fault) := Netlist.tokens text
  ofTokens fault ts

/-! ## The next token -/

/-- The next token, which may be the one that ends the line. -/
def next (l : Line) : Token := l.tokens.headD l.ending

/-- Nothing is left but the ending. -/
def atEnd (l : Line) : Bool := l.tokens.isEmpty

/-- A complaint about the line. -/
def complaint (l : Line) (message : String) : Error := .grammar l.number message

/-- What a reader returns: a result and a shorter rest of the line. -/
abbrev Taken (l : Line) (β : Type) : Type :=
  { r : β × Line // r.2.tokens.length < l.tokens.length }

/-- Reads the next token, whose kind is given. -/
def take (l : Line) (kind : TokenKind) : Except Error (Taken l Token) :=
  match h : l.tokens with
  | [] => .error (l.complaint s!"expected {kind.name}, got {l.ending.kind.name}")
  | t :: ts =>
    if t.kind = kind then
      match ts, l.fault with
      | [], some e => .error e
      | ts', _ => .ok ⟨(t, { l with tokens := ts' }), by simp [h]⟩
    else .error (l.complaint s!"expected {kind.name}, got {t.kind.name}")

end Line

end AnalogCircuit.Netlist
