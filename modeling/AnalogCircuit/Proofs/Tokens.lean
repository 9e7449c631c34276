import AnalogCircuit.Proofs.Scanning
import AnalogCircuit.Netlist.Parse
/-!
# How tokens are read

What a token is depends on the character that it starts with, and on the one behind that. A token stands for what is
read of the text, and where it starts does not matter for what it is.
-/

namespace AnalogCircuit.Netlist

open Numeral

/-! ## What is taken from a text -/

/-- What stands in front of the rest of a text has the property throughout. -/
def Takes (p : Char → Bool) (cs rest : List Char) : Prop := ∃ taken, cs = taken ++ rest ∧ ∀ c ∈ taken, p c = true

namespace Takes

variable {p q : Char → Bool} {cs rest rest' : List Char} {c : Char}

theorem refl (p : Char → Bool) (cs : List Char) : Takes p cs cs := ⟨[], rfl, nofun⟩

theorem cons (hc : p c = true) (h : Takes p cs rest) : Takes p (c :: cs) rest := by
  obtain ⟨taken, rfl, all⟩ := h
  exact ⟨c :: taken, rfl, List.forall_mem_cons.mpr ⟨hc, all⟩⟩

theorem trans (h : Takes p cs rest) (h' : Takes p rest rest') : Takes p cs rest' := by
  obtain ⟨taken, rfl, all⟩ := h
  obtain ⟨taken', rfl, all'⟩ := h'
  exact ⟨taken ++ taken', (List.append_assoc ..).symm, List.forall_mem_append.mpr ⟨all, all'⟩⟩

theorem mono (imp : ∀ c, p c = true → q c = true) (h : Takes p cs rest) : Takes q cs rest := by
  obtain ⟨taken, same, all⟩ := h
  exact ⟨taken, same, fun c hc => imp c (all c hc)⟩

theorem splitWhile (p : Char → Bool) (cs : List Char) : Takes p cs (Text.splitWhile p cs).2 :=
  ⟨cs.takeWhile p, List.takeWhile_append_dropWhile.symm, fun _ => List.mem_takeWhile_imp⟩

/-- The text between two ends of a scan is what was taken. -/
theorem between (h : Takes p cs rest) : ∀ c ∈ between cs rest, p c = true := by
  obtain ⟨taken, rfl, all⟩ := h
  simpa [Netlist.between] using all

end Takes

/-! ## Numbers -/

/-- The characters of a number and of the letters and digits behind it. -/
def isNumberChar (c : Char) : Bool := isWordChar c || (c == '.' || (c == '+' || c == '-'))

theorem isNumberChar_of_isWordChar {c : Char} (h : isWordChar c = true) : isNumberChar c = true := by
  simp [isNumberChar, h]

theorem isNumberChar_of_isDigit {c : Char} (h : isDigit c = true) : isNumberChar c = true := by
  have bounds : c.toNat < 128 ∧ c.isDigit = true := by
    simp only [isDigit, Bool.and_eq_true, decide_eq_true_eq, Char.le_def, UInt32.le_iff_toNat_le] at h
    refine ⟨Nat.lt_of_le_of_lt h.2 (by decide), ?_⟩
    simpa [Char.isDigit, UInt32.le_iff_toNat_le] using h
  refine isNumberChar_of_isWordChar ?_
  simp [isWordChar, Text.isAlphanumeric, bounds, Char.isAlphanum]

theorem takes_spanDigits (cs : List Char) : Takes isNumberChar cs (spanDigits cs).2 :=
  (Takes.splitWhile isDigit cs).mono fun _ => isNumberChar_of_isDigit

theorem takes_spanExponent (cs : List Char) : Takes isNumberChar cs (spanExponent cs).2 := by
  unfold spanExponent
  split
  case h_2 => exact .refl _ _
  next m cs =>
  split
  case isFalse => exact .refl _ _
  next mark =>
  have mark : isNumberChar m = true := by
    rcases Bool.or_eq_true_iff.mp mark with same | same <;> (rw [eq_of_beq same]; decide)
  split
  · next s d r =>
    split
    · next sign =>
      refine ((takes_spanDigits _).cons ?_).cons mark
      rcases Bool.or_eq_true_iff.mp (Bool.and_eq_true_iff.mp sign).1 with same | same <;>
        (rw [eq_of_beq same]; decide)
    split
    · exact (takes_spanDigits _).cons mark
    · exact .refl _ _
  · next d =>
    split
    · next digit => exact ((Takes.refl _ _).cons (isNumberChar_of_isDigit digit)).cons mark
    · exact .refl _ _
  · exact .refl _ _

theorem takes_spanFraction (cs : List Char) : Takes isNumberChar cs (Expr.spanFraction cs).2 := by
  unfold Expr.spanFraction
  split
  · exact (takes_spanDigits _).cons (by decide)
  · exact .refl _ _

theorem takes_spanLiteral (cs : List Char) : Takes isNumberChar cs (spanLiteral spanExponent cs).2 := by
  rw [Expr.spanLiteral_eq]
  exact ((takes_spanDigits cs).trans (takes_spanFraction _)).trans (takes_spanExponent _)

theorem takes_spanSigned (cs : List Char) : Takes isNumberChar cs (spanSigned cs).2 := by
  unfold spanSigned
  split
  · exact (takes_spanLiteral _).cons rfl
  · exact (takes_spanLiteral _).cons rfl
  · exact takes_spanLiteral _

theorem takes_spanNumber (cs : List Char) : Takes isNumberChar cs (spanNumber cs).2 :=
  (takes_spanSigned cs).trans ((Takes.splitWhile isWordChar _).mono fun _ => isNumberChar_of_isWordChar)

/-! ## What a token starts with -/

/-- What a character can start. -/
inductive Start where
  | mark (kind : TokenKind)
  | braces
  | number
  | word (kind : TokenKind)
  | nothing

/-- What the character `c` starts if the next one is this. -/
def Start.of (c : Char) (next? : Option Char) : Start :=
  if c = '\n' then .mark .newline
  else if c = '(' then .mark .openParen
  else if c = ')' then .mark .closeParen
  else if c = '=' then .mark .equals
  else if c = '\x7b' then .braces
  else if c = '.' then if next?.any isDigit then .number else .word .directive
  else if (c == '+' || c == '-') && next?.any (fun d => isDigit d || d == '.') then .number
  else if isDigit c then .number
  else if Text.isAlphabetic c || c == '_' then .word .identifier
  else .nothing

namespace Start

variable {c : Char} {next? : Option Char} {kind : TokenKind}

/-- A mark is neither a name, nor an expression, nor the end, and only a line break is read as one. -/
theorem mark_of (h : of c next? = .mark kind) :
    kind ≠ .identifier ∧ kind ≠ .expression ∧ kind ≠ .eof ∧ (kind = .newline → c = '\n') := by
  unfold of at h
  split at h
  · next same => cases h; exact ⟨nofun, nofun, nofun, fun _ => same⟩
  iterate 3
    split at h
    · cases h; exact ⟨nofun, nofun, nofun, nofun⟩
  repeat' split at h
  all_goals cases h

theorem braces_of (h : of c next? = .braces) : c = '\x7b' := by
  unfold of at h
  iterate 4
    split at h
    · cases h
  split at h
  · assumption
  repeat' split at h
  all_goals cases h

/-- A word is a directive, or a name, which starts with a letter. -/
theorem word_of (h : of c next? = .word kind) :
    kind = .directive ∨ kind = .identifier ∧ (Text.isAlphabetic c || c == '_') = true := by
  unfold of at h
  iterate 5
    split at h
    · cases h
  split at h
  · split at h <;> cases h
    exact .inl rfl
  iterate 2
    split at h
    · cases h
  split at h
  · next letter => cases h; exact .inr ⟨rfl, letter⟩
  · cases h

end Start

/-- What a number that starts with the character `c` is. -/
def readNumber (p : Position) (c : Char) (number : List Char × List Char) : Except Error (Token × List Char) := do
  match ← readQuantity number.1 with
  | some _ => return (⟨.number, String.ofList number.1, p⟩, number.2)
  | none =>
    if isDigit c then return (⟨.identifier, String.ofList number.1, p⟩, number.2)
    else throw (.lexical p.line p.column s!"malformed number '{String.ofList number.1}'")

/-- What a word that starts with the character `c` is. -/
def readWord (kind : TokenKind) (p : Position) (c : Char) (word : List Char × List Char) : Token × List Char :=
  (⟨kind, String.ofList (c :: word.1), p⟩, word.2)

/-- The token that starts with the character `c`, and the rest of the text, without the bound for the rest. -/
def readToken (p : Position) (c : Char) (cs : List Char) : Except Error (Token × List Char) :=
  match Start.of c cs.head? with
  | .mark kind => .ok (⟨kind, c.toString, p⟩, cs)
  | .braces =>
    match spanBraces 0 cs with
    | some (text, rest) => .ok (⟨.expression, String.ofList text, p⟩, rest)
    | none => .error (.lexical p.line p.column "unterminated '\x7b'")
  | .number => readNumber p c (spanNumber (c :: cs))
  | .word kind => .ok (readWord kind p c (Text.splitWhile isWordChar cs))
  | .nothing => .error (.lexical p.line p.column s!"unexpected character '{c.toString}'")

theorem scanNumber_eq_readNumber (p : Position) (c : Char) (cs : List Char) (h : startsValue c = true) :
    (scanNumber p c cs h).map (·.1) = readNumber p c (spanNumber (c :: cs)) := by
  unfold scanNumber readNumber
  dsimp only
  cases readQuantity (spanNumber (c :: cs)).1 with
  | error e => rfl
  | ok quantity? =>
    cases quantity? with
    | some q => rfl
    | none => cases digit : isDigit c <;> rfl

theorem scanToken_eq_readToken (p : Position) (c : Char) (cs : List Char) :
    (scanToken p c cs).map (·.1) = readToken p c cs := by
  unfold scanToken readToken Start.of
  dsimp only
  split; · rfl
  split; · rfl
  split; · rfl
  split; · rfl
  split
  · split
    · next h => simp only [h]; rfl
    · next h => simp only [h]; rfl
  split
  · split
    · exact scanNumber_eq_readNumber ..
    · rfl
  split
  · exact scanNumber_eq_readNumber ..
  split
  · exact scanNumber_eq_readNumber ..
  split <;> rfl

theorem readToken_of_scanToken {p : Position} {c : Char} {cs : List Char} {r : Token × List Char}
    {h : r.2.length ≤ cs.length} (scanned : scanToken p c cs = .ok ⟨r, h⟩) : readToken p c cs = .ok r := by
  rw [← scanToken_eq_readToken, scanned]
  rfl

/-- The forms of a token that starts with the character `c`: what it is, and what is left of the text. -/
inductive Reads (p : Position) (c : Char) (cs : List Char) : Token → List Char → Prop
  | mark {kind : TokenKind} (start : Start.of c cs.head? = .mark kind) : Reads p c cs ⟨kind, c.toString, p⟩ cs
  | braces {inside rest : List Char} (start : Start.of c cs.head? = .braces)
      (spanned : spanBraces 0 cs = some (inside, rest)) : Reads p c cs ⟨.expression, String.ofList inside, p⟩ rest
  | number {text rest : List Char} {q : Quantity} (start : Start.of c cs.head? = .number)
      (spanned : spanNumber (c :: cs) = (text, rest)) (denotes : readQuantity text = .ok (some q)) :
      Reads p c cs ⟨.number, String.ofList text, p⟩ rest
  | digits {text rest : List Char} (start : Start.of c cs.head? = .number)
      (spanned : spanNumber (c :: cs) = (text, rest)) (denotes : readQuantity text = .ok none)
      (digit : isDigit c = true) : Reads p c cs ⟨.identifier, String.ofList text, p⟩ rest
  | word {kind : TokenKind} {word rest : List Char} (start : Start.of c cs.head? = .word kind)
      (spanned : Text.splitWhile isWordChar cs = (word, rest)) :
      Reads p c cs ⟨kind, String.ofList (c :: word), p⟩ rest

theorem reads_of_readToken {p : Position} {c : Char} {cs rest : List Char} {t : Token}
    (read : readToken p c cs = .ok (t, rest)) : Reads p c cs t rest := by
  unfold readToken at read
  cases start : Start.of c cs.head? with
  | mark kind =>
    rw [start] at read
    cases read
    exact .mark start
  | braces =>
    rw [start] at read
    dsimp only at read
    split at read <;> cases read
    next spanned =>
    exact .braces start spanned
  | number =>
    rw [start] at read
    dsimp only at read
    unfold readNumber at read
    obtain ⟨quantity?, denotes, read⟩ := exists_of_bind_eq_ok read
    split at read
    · cases read
      exact .number start rfl denotes
    split at read <;> cases read
    next digit =>
    exact .digits start rfl denotes digit
  | word kind =>
    rw [start] at read
    cases read
    exact .word start rfl
  | nothing =>
    rw [start] at read
    cases read

theorem readToken_of_reads {p : Position} {c : Char} {cs rest : List Char} {t : Token} (form : Reads p c cs t rest) :
    readToken p c cs = .ok (t, rest) := by
  unfold readToken
  cases form with
  | mark start => rw [start]
  | braces start spanned =>
    rw [start]
    dsimp only
    rw [spanned]
  | number start spanned denotes =>
    rw [start]
    dsimp only
    rw [spanned, readNumber, denotes]
    rfl
  | digits start spanned denotes digit =>
    rw [start]
    dsimp only
    rw [spanned, readNumber, denotes]
    exact if_pos digit
  | word start spanned =>
    rw [start]
    dsimp only
    rw [spanned]
    rfl

/-- A token is read if and only if it has one of the forms. -/
theorem readToken_eq_ok_iff {p : Position} {c : Char} {cs rest : List Char} {t : Token} :
    readToken p c cs = .ok (t, rest) ↔ Reads p c cs t rest := ⟨reads_of_readToken, readToken_of_reads⟩

/-- Where a token starts does not matter for what it is. -/
theorem readToken_move (p p' : Position) (c : Char) (cs : List Char) :
    (readToken p' c cs).toOption = (readToken p c cs).toOption.map fun r => ({ r.1 with position := p' }, r.2) := by
  unfold readToken
  cases Start.of c cs.head? with
  | mark | word | nothing => rfl
  | braces => cases spanBraces 0 cs <;> rfl
  | number =>
    unfold readNumber
    cases readQuantity (spanNumber (c :: cs)).1 with
    | error e => rfl
    | ok quantity? =>
      cases quantity? with
      | some q => rfl
      | none => cases digit : isDigit c <;> rfl

/-! ## What a token stands for -/

theorem Token.source_of_ne {t : Token} (h : t.kind ≠ .expression) : t.source = t.text.toList := if_neg h

/-- Braces enclose what is between them. -/
theorem eq_append_of_spanBraces {depth : Nat} {cs t r : List Char} (h : spanBraces depth cs = some (t, r)) :
    cs = t ++ '\x7d' :: r := by
  fun_induction spanBraces depth cs generalizing t r with
  | case1 => cases h
  | case2 => cases h
  | case3 _ _ _ ih | case5 _ _ _ _ ih | case6 _ _ _ _ _ _ ih =>
    obtain ⟨⟨t', r'⟩, h', e⟩ := Option.map_eq_some_iff.mp h
    cases e
    exact congrArg _ (ih h')
  | case4 => cases h; rfl

/-- The token stands for what is read of a text, from where it is read; only a line break is read as one. -/
structure Token.Covers (t : Token) (p : Position) (c : Char) (cs rest : List Char) : Prop where
  source : c :: cs = t.source ++ rest
  eof : t.kind ≠ .eof
  newline : t.kind = .newline → c = '\n'
  position : t.position = p

theorem append_of_spanNumber {cs text rest : List Char} (spanned : spanNumber cs = (text, rest)) : cs = text ++ rest := by
  have source : cs = (spanNumber cs).1 ++ (spanNumber cs).2 := by
    obtain ⟨taken, same, -⟩ := takes_spanNumber cs
    show cs = between cs (spanNumber cs).2 ++ _
    generalize (spanNumber cs).2 = more at same
    rw [same]
    simp [between]
  rw [spanned] at source
  exact source

theorem isNumberChar_of_spanNumber {cs text rest : List Char} (spanned : spanNumber cs = (text, rest)) :
    ∀ d ∈ text, isNumberChar d = true := by
  obtain rfl : (spanNumber cs).1 = text := congrArg Prod.fst spanned
  exact (takes_spanNumber cs).between

theorem isWordChar_of_splitWhile {cs word rest : List Char} (spanned : Text.splitWhile isWordChar cs = (word, rest)) :
    ∀ d ∈ word, isWordChar d = true := by
  obtain rfl : (Text.splitWhile isWordChar cs).1 = word := congrArg Prod.fst spanned
  exact fun _ => List.mem_takeWhile_imp

theorem covers_readToken {p : Position} {c : Char} {cs rest : List Char} {t : Token}
    (read : readToken p c cs = .ok (t, rest)) : t.Covers p c cs rest := by
  cases readToken_eq_ok_iff.mp read with
  | mark start =>
    obtain ⟨-, expression, eof, newline⟩ := Start.mark_of start
    refine ⟨?_, eof, newline, rfl⟩
    rw [Token.source_of_ne expression]
    simp
  | braces start spanned =>
    obtain rfl := Start.braces_of start
    refine ⟨?_, nofun, nofun, rfl⟩
    simp [Token.source, eq_append_of_spanBraces spanned]
  | number start spanned | digits start spanned =>
    refine ⟨?_, nofun, nofun, rfl⟩
    simpa [Token.source] using append_of_spanNumber spanned
  | word start spanned =>
    have directive := Start.word_of start
    refine ⟨?_, ?_, ?_, rfl⟩
    · rw [Token.source_of_ne (by rcases directive with rfl | ⟨rfl, -⟩ <;> nofun), String.toList_ofList,
        ← Text.splitWhile_append isWordChar cs, spanned]
      rfl
    · rcases directive with rfl | ⟨rfl, -⟩ <;> nofun
    · rcases directive with rfl | ⟨rfl, -⟩ <;> nofun

end AnalogCircuit.Netlist
