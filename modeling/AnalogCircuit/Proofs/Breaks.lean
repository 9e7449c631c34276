import AnalogCircuit.Proofs.Tokens
/-!
# Tokens line by line

No token reaches beyond a line break, so the tokens of a text are those of its lines, with a token for every break
between them. What the tokens of a line are does not depend on where the line stands; their places do.
-/

namespace AnalogCircuit.Netlist

open Numeral

/-! ## Parts of tokens -/

theorem apart_break {more : List Char} : Expr.Apart ('\n' :: more) := by
  rintro c ⟨⟩
  decide

theorem isDigit_break : isDigit '\n' = false := by decide

theorem spanExponent_break (cs more : List Char) :
    spanExponent (cs ++ '\n' :: more) = ((spanExponent cs).1, (spanExponent cs).2 ++ '\n' :: more) := by
  have digits (cs : List Char) :
      spanDigits (cs ++ '\n' :: more) = ((spanDigits cs).1, (spanDigits cs).2 ++ '\n' :: more) :=
    Expr.spanDigits_append apart_break
  rcases cs with _ | ⟨m, cs⟩
  · rfl
  by_cases mark : (m == 'e' || m == 'E') = true
  case neg => simp [spanExponent, mark]
  rcases cs with _ | ⟨s, _ | ⟨d, cs⟩⟩
  · cases more <;> simp [spanExponent, mark, isDigit_break]
  · -- the break is where a digit could be
    have one := digits [s]
    simp only [List.cons_append, List.nil_append] at one ⊢
    by_cases digit : isDigit s = true
    · simp only [spanExponent, mark, isDigit_break, digit, one, if_true, Bool.and_false, Bool.false_eq_true, if_false]
      simp [spanDigits, Text.splitWhile, digit]
    · simp [spanExponent, mark, isDigit_break, digit]
  · have one := digits (s :: d :: cs)
    have two := digits (d :: cs)
    simp only [List.cons_append] at one two ⊢
    simp only [spanExponent, mark, if_true, one, two]
    split
    · rfl
    split <;> rfl

theorem spanLiteral_break (cs more : List Char) : spanLiteral spanExponent (cs ++ '\n' :: more) =
    ((spanLiteral spanExponent cs).1, (spanLiteral spanExponent cs).2 ++ '\n' :: more) := by
  simp only [Expr.spanLiteral_eq, Expr.spanDigits_append apart_break, Expr.spanFraction_append apart_break,
    spanExponent_break]

theorem spanSigned_break (cs more : List Char) :
    spanSigned (cs ++ '\n' :: more) = ((spanSigned cs).1, (spanSigned cs).2 ++ '\n' :: more) := by
  rcases cs with _ | ⟨c, cs⟩
  · exact spanLiteral_break [] more
  by_cases plus : c = '+'
  · subst plus
    exact spanLiteral_break cs more
  by_cases minus : c = '-'
  · subst minus
    simp only [spanSigned, List.cons_append, spanLiteral_break]
  · have unsigned (cs : List Char) : spanSigned (c :: cs) = spanLiteral spanExponent (c :: cs) := by
      unfold spanSigned
      split
      · next same => cases same; exact absurd rfl plus
      · next same => cases same; exact absurd rfl minus
      · rfl
    rw [List.cons_append, unsigned, unsigned]
    exact spanLiteral_break (c :: cs) more

theorem splitWhile_break {p : Char → Bool} (stop : p '\n' = false) (cs more : List Char) :
    Text.splitWhile p (cs ++ '\n' :: more) = ((Text.splitWhile p cs).1, (Text.splitWhile p cs).2 ++ '\n' :: more) :=
  Expr.splitWhile_append_of_stop (by rintro c ⟨⟩; exact stop)

theorem isWordChar_break : isWordChar '\n' = false := by decide

theorem between_append (cs rest more : List Char) : between (cs ++ more) (rest ++ more) = between cs rest := by
  unfold between
  rw [List.length_append, List.length_append, Nat.add_sub_add_right, List.take_append_of_le_length (Nat.sub_le _ _)]

theorem spanNumber_break (cs more : List Char) :
    spanNumber (cs ++ '\n' :: more) = ((spanNumber cs).1, (spanNumber cs).2 ++ '\n' :: more) := by
  simp only [spanNumber, spanSigned_break, splitWhile_break isWordChar_break, between_append]

theorem spanBraces_break (depth : Nat) (cs more : List Char) : spanBraces depth (cs ++ '\n' :: more) =
    (spanBraces depth cs).map fun r => (r.1, r.2 ++ '\n' :: more) := by
  induction cs generalizing depth with
  | nil => cases depth <;> rfl
  | cons c cs ih =>
    rw [List.cons_append]
    unfold spanBraces
    split
    · rfl
    split
    · simp [ih, Function.comp_def]
    split
    · cases depth with
      | zero => rfl
      | succ depth => simp [ih, Function.comp_def]
    · simp [ih, Function.comp_def]

theorem splitTrivia_break (inComment : Bool) (cs more : List Char) : splitTrivia inComment (cs ++ '\n' :: more) =
    ((splitTrivia inComment cs).1, (splitTrivia inComment cs).2 ++ '\n' :: more) := by
  induction cs generalizing inComment with
  | nil => simp [splitTrivia]
  | cons c cs ih =>
    rw [List.cons_append, splitTrivia, splitTrivia]
    dsimp only
    split
    · rw [ih]
    · rfl

/-! ## Tokens -/

theorem start_break (c : Char) (cs more : List Char) :
    Start.of c (cs ++ '\n' :: more).head? = Start.of c cs.head? := by
  cases cs with
  | nil => simp [Start.of, isDigit_break]
  | cons => rfl

/-- What is read does not depend on what comes behind a line break. -/
theorem readToken_break (p : Position) (c : Char) (cs more : List Char) :
    readToken p c (cs ++ '\n' :: more) = (readToken p c cs).map fun r => (r.1, r.2 ++ '\n' :: more) := by
  unfold readToken
  rw [start_break]
  cases Start.of c cs.head? with
  | mark | nothing => rfl
  | braces =>
    rw [spanBraces_break]
    cases spanBraces 0 cs <;> rfl
  | word kind =>
    rw [splitWhile_break isWordChar_break]
    rfl
  | number =>
    rw [← List.cons_append, spanNumber_break]
    unfold readNumber
    cases readQuantity (spanNumber (c :: cs)).1 with
    | error e => rfl
    | ok quantity? =>
      cases quantity? with
      | some q => rfl
      | none => cases digit : isDigit c <;> rfl

/-! ## Scans -/

/-- What a text holds from a place on: its tokens, and where it ends or the fault that comes instead. -/
inductive Scans : Position → List Char → List Token → Except Error Position → Prop
  | done {p : Position} {cs trivia : List Char} (blank : splitTrivia false cs = (trivia, [])) :
      Scans p cs [] (.ok (p.after trivia))
  | fault {p : Position} {cs trivia rest : List Char} {c : Char} {e : Error}
      (start : splitTrivia false cs = (trivia, c :: rest)) (read : readToken (p.after trivia) c rest = .error e) :
      Scans p cs [] (.error e)
  | token {p : Position} {cs trivia rest rest' : List Char} {c : Char} {t : Token} {ts : List Token}
      {ending : Except Error Position} (start : splitTrivia false cs = (trivia, c :: rest))
      (read : readToken (p.after trivia) c rest = .ok (t, rest'))
      (others : Scans ((p.after trivia).after t.source) rest' ts ending) : Scans p cs (t :: ts) ending

/-- The tokens behind those of a text: an end, or none if there is a fault. -/
def closing : Except Error Position → List Token × Option Error
  | .ok q => ([⟨.eof, "", q⟩], none)
  | .error e => ([], some e)

/-- The tokens of a text are those of a scan. -/
theorem exists_scans (p : Position) (cs : List Char) : ∃ ts ending, Scans p cs ts ending ∧
    tokensFrom p cs = (ts ++ (closing ending).1, (closing ending).2) := by
  fun_induction tokensFrom p cs with
  | case1 p cs trivia p' blank => 
    have blank : splitTrivia false cs = (trivia.1, []) := Prod.ext rfl blank
    exact ⟨[], _, .done blank, rfl⟩
  | case2 p cs trivia p' c rest start e scanned =>
    have read := scanToken_eq_readToken p' c rest
    rw [scanned] at read
    exact ⟨[], _, .fault (Prod.ext rfl start) read.symm, rfl⟩
  | case3 p cs trivia p' c rest start t rest' h scanned ts fault found ih =>
    have read := scanToken_eq_readToken p' c rest
    rw [scanned] at read
    obtain ⟨ts', ending, others, same⟩ := ih
    obtain ⟨rfl, rfl⟩ := Prod.mk.inj (found.symm.trans same)
    exact ⟨t :: ts', ending, .token (Prod.ext rfl start) read.symm others, rfl⟩

theorem Scans.unique {p : Position} {cs : List Char} {ts ts' : List Token} {ending ending' : Except Error Position}
    (h : Scans p cs ts ending) (h' : Scans p cs ts' ending') : ts = ts' ∧ ending = ending' := by
  induction h generalizing ts' with
  | done blank =>
    cases h' with
    | done blank' => cases blank.symm.trans blank'; exact ⟨rfl, rfl⟩
    | fault start' | token start' => cases blank.symm.trans start'
  | fault start read =>
    cases h' with
    | done blank' => cases start.symm.trans blank'
    | fault start' read' =>
      cases start.symm.trans start'
      cases read.symm.trans read'
      exact ⟨rfl, rfl⟩
    | token start' read' =>
      cases start.symm.trans start'
      cases read.symm.trans read'
  | token start read others ih =>
    cases h' with
    | done blank' => cases start.symm.trans blank'
    | fault start' read' =>
      cases start.symm.trans start'
      cases read.symm.trans read'
    | token start' read' others' =>
      cases start.symm.trans start'
      cases read.symm.trans read'
      obtain ⟨rfl, rfl⟩ := ih others'
      exact ⟨rfl, rfl⟩

theorem Scans.tokensFrom_eq {p : Position} {cs : List Char} {ts : List Token} {ending : Except Error Position}
    (h : Scans p cs ts ending) : tokensFrom p cs = (ts ++ (closing ending).1, (closing ending).2) := by
  obtain ⟨ts', ending', h', same⟩ := exists_scans p cs
  obtain ⟨rfl, rfl⟩ := h.unique h'
  exact same

/-- Behind a line break the scan goes on at the start of the next line. -/
theorem Scans.append_break {p q : Position} {cs more : List Char} {ts ts' : List Token}
    {ending : Except Error Position} (h : Scans p cs ts (.ok q)) (rest : Scans (q.next '\n') more ts' ending) :
    Scans p (cs ++ '\n' :: more) (ts ++ ⟨.newline, "\n", q⟩ :: ts') ending := by
  generalize first : (Except.ok q : Except Error Position) = ending' at h
  induction h with
  | @done p cs trivia blank =>
    cases first
    have start : splitTrivia false (cs ++ '\n' :: more) = (trivia, '\n' :: more) := by
      rw [splitTrivia_break, blank]
      rfl
    exact .token start rfl (by simpa [Token.source, Position.after] using rest)
  | fault => cases first
  | @token p cs trivia rest₁ rest₂ c t ts ending' start read others ih =>
    have start' : splitTrivia false (cs ++ '\n' :: more) = (trivia, c :: (rest₁ ++ '\n' :: more)) := by
      rw [splitTrivia_break, start]
      rfl
    have read' : readToken (p.after trivia) c (rest₁ ++ '\n' :: more) = .ok (t, rest₂ ++ '\n' :: more) := by
      rw [readToken_break, read]
      rfl
    exact .token start' read' (ih first)

/-- What comes behind a fault does not matter. -/
theorem Scans.append_fault {p : Position} {cs : List Char} {ts : List Token} {e : Error}
    (h : Scans p cs ts (.error e)) (more : List Char) : Scans p (cs ++ '\n' :: more) ts (.error e) := by
  generalize first : (Except.error e : Except Error Position) = ending at h
  induction h with
  | done => cases first
  | @fault p cs trivia rest c e' start read =>
    have start' : splitTrivia false (cs ++ '\n' :: more) = (trivia, c :: (rest ++ '\n' :: more)) := by
      rw [splitTrivia_break, start]
      rfl
    refine .fault start' ?_
    rw [readToken_break, read]
    rfl
  | @token p cs trivia rest₁ rest₂ c t ts ending' start read others ih =>
    have start' : splitTrivia false (cs ++ '\n' :: more) = (trivia, c :: (rest₁ ++ '\n' :: more)) := by
      rw [splitTrivia_break, start]
      rfl
    have read' : readToken (p.after trivia) c (rest₁ ++ '\n' :: more) = .ok (t, rest₂ ++ '\n' :: more) := by
      rw [readToken_break, read]
      rfl
    exact .token start' read' (ih first)

/-! ## Scans of lines -/

theorem line_after {p : Position} {cs : List Char} (h : '\n' ∉ cs) : (p.after cs).line = p.line := by
  unfold Position.after
  induction cs generalizing p with
  | nil => rfl
  | cons c cs ih =>
    rw [List.mem_cons, not_or] at h
    rw [List.foldl_cons, ih h.2, Position.next, if_neg (Ne.symm h.1)]

theorem splitTrivia_append (inComment : Bool) (cs : List Char) :
    (splitTrivia inComment cs).1 ++ (splitTrivia inComment cs).2 = cs := by
  fun_induction splitTrivia inComment cs with
  | case1 => rfl
  | case2 inComment c cs comment blank trivia rest found ih =>
    rw [found] at ih
    exact congrArg _ ih
  | case3 => rfl

/-- All of a text without line breaks stands on the line on which it starts. -/
theorem Scans.onLine {p : Position} {cs : List Char} {ts : List Token} {ending : Except Error Position}
    (h : Scans p cs ts ending) (unbroken : '\n' ∉ cs) :
    (∀ t ∈ ts, t.line = p.line ∧ t.kind ≠ .newline ∧ t.kind ≠ .eof) ∧ ∀ q, ending = .ok q → q.line = p.line := by
  induction h with
  | @done p cs trivia blank =>
    obtain rfl : trivia = cs := by simpa [blank] using splitTrivia_append false cs
    refine ⟨nofun, ?_⟩
    rintro q ⟨⟩
    exact line_after unbroken
  | fault => exact ⟨nofun, nofun⟩
  | @token p cs trivia rest rest' c t ts ending start read others ih =>
    have whole := splitTrivia_append false cs
    have covers := covers_readToken read
    rw [start] at whole
    rw [← whole, List.mem_append, not_or] at unbroken
    have line : (p.after trivia).line = p.line := line_after unbroken.1
    have first : c ≠ '\n' := fun same => unbroken.2 (same ▸ List.mem_cons_self)
    rw [covers.source, List.mem_append, not_or] at unbroken
    obtain ⟨tokens, last⟩ := ih unbroken.2.2
    rw [line_after unbroken.2.1, line] at tokens last
    refine ⟨List.forall_mem_cons.mpr ⟨⟨?_, first ∘ covers.newline, covers.eof⟩, tokens⟩, last⟩
    rw [Token.line, covers.position, line]

/-- The kind and the text of a token. -/
def Token.content (t : Token) : TokenKind × String := (t.kind, t.text)

/-- The tokens of a text are the same wherever it starts. -/
theorem Scans.move {p : Position} {cs : List Char} {ts : List Token} {ending : Except Error Position}
    (h : Scans p cs ts ending) (p' : Position) : ∃ ts' ending', Scans p' cs ts' ending' ∧
      ts'.map Token.content = ts.map Token.content ∧ ending'.isOk = ending.isOk := by
  induction h generalizing p' with
  | done blank => exact ⟨[], _, .done blank, rfl, rfl⟩
  | @fault p cs trivia rest c e start read =>
    have moved := readToken_move (p.after trivia) (p'.after trivia) c rest
    rw [read] at moved
    cases read' : readToken (p'.after trivia) c rest with
    | error e' => exact ⟨[], _, .fault start read', rfl, rfl⟩
    | ok r => rw [read'] at moved; cases moved
  | @token p cs trivia rest rest' c t ts ending start read others ih =>
    have moved := readToken_move (p.after trivia) (p'.after trivia) c rest
    rw [read] at moved
    cases read' : readToken (p'.after trivia) c rest with
    | error e' => rw [read'] at moved; cases moved
    | ok r =>
      rw [read'] at moved
      obtain rfl : r = ({ t with position := p'.after trivia }, rest') := Option.some.inj moved
      obtain ⟨ts', ending', others', same, fine⟩ := ih ((p'.after trivia).after t.source)
      exact ⟨_, ending', .token start read' others', congrArg (t.content :: ·) same, fine⟩

end AnalogCircuit.Netlist
