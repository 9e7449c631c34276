import Mathlib.Data.List.DropRight
import AnalogCircuit.Proofs.Breaks
import AnalogCircuit.Scalar.Double
/-!
# Tokens and the text between them

A text in which no fault is found is its tokens and the gaps in front of them, put together again in their order, and
every token names the place at which it stands. What is read as a number denotes a value, and a name that starts like a
number denotes none.
-/

namespace AnalogCircuit.Netlist

open Numeral

/-! ## Gaps -/

/-- A gap in front of the rest of a text: blanks, then perhaps a comment, which reaches as far as its line. -/
inductive IsGap : List Char → List Char → Prop
  | nil {rest : List Char} : IsGap [] rest
  | blank {c : Char} {gap rest : List Char} (blank : c = ' ' ∨ c = '\t' ∨ c = '\r') (more : IsGap gap rest) :
      IsGap (c :: gap) rest
  | comment {c : Char} {text rest : List Char} (mark : c = '#' ∨ c = ';') (line : '\n' ∉ text)
      (ends : ∀ d, rest.head? = some d → d = '\n') : IsGap (c :: text) rest

theorem splitTrivia_comment {cs trivia rest : List Char} (h : splitTrivia true cs = (trivia, rest)) :
    '\n' ∉ trivia ∧ ∀ d, rest.head? = some d → d = '\n' := by
  induction cs generalizing trivia rest with
  | nil => cases h; exact ⟨nofun, nofun⟩
  | cons c cs ih =>
    rw [splitTrivia] at h
    dsimp only at h
    split at h
    · next inside =>
      cases h
      simp only [Bool.true_or, Bool.and_true, bne_iff_ne] at inside
      obtain ⟨line, ends⟩ := ih rfl
      exact ⟨by simp [Ne.symm inside, line], ends⟩
    · next outside =>
      cases h
      simp only [Bool.true_or, Bool.and_true, bne_iff_ne, not_not] at outside
      exact ⟨nofun, by rintro d ⟨⟩; exact outside⟩

theorem isGap_of_splitTrivia {cs trivia rest : List Char} (h : splitTrivia false cs = (trivia, rest)) :
    IsGap trivia rest := by
  induction cs generalizing trivia rest with
  | nil => cases h; exact .nil
  | cons c cs ih =>
    rw [splitTrivia] at h
    dsimp only at h
    split at h
    · next inside =>
      cases h
      by_cases mark : c = '#' ∨ c = ';'
      · have comment : (false || c == '#' || c == ';') = true := by simpa using mark
        rw [comment]
        obtain ⟨line, ends⟩ := @splitTrivia_comment cs _ _ rfl
        exact .comment mark line ends
      · have comment : (false || c == '#' || c == ';') = false := by simpa using mark
        rw [comment] at inside ⊢
        refine .blank ?_ (ih rfl)
        simpa [or_assoc] using (Bool.and_eq_true_iff.mp inside).2
    · cases h; exact .nil

/-! ## Places -/

/-- The place behind a text, told by its line breaks and by the characters behind the last one. -/
def Position.behind (cs : List Char) : Position := ⟨1 + cs.count '\n', 1 + (cs.rtakeWhile (· != '\n')).length⟩

theorem Position.after_append (p : Position) (cs ds : List Char) : p.after (cs ++ ds) = (p.after cs).after ds :=
  List.foldl_append

theorem Position.after_start (cs : List Char) : start.after cs = behind cs := by
  induction cs using List.reverseRecOn with
  | nil => rfl
  | append_singleton cs c ih =>
    rw [after_append, ih]
    by_cases broken : c = '\n'
    · subst broken
      simp [after, next, behind, Nat.add_assoc]
    · simp [after, next, behind, broken, Nat.add_assoc]

/-! ## Tokens -/

/-- Braces enclose a part of one line. -/
theorem unbroken_of_spanBraces {depth : Nat} {cs t r : List Char} (h : spanBraces depth cs = some (t, r)) :
    '\n' ∉ t := by
  fun_induction spanBraces depth cs generalizing t r with
  | case1 => cases h
  | case2 => cases h
  | case3 _ _ _ ih | case5 _ _ _ _ ih =>
    obtain ⟨⟨t', r'⟩, h', e⟩ := Option.map_eq_some_iff.mp h
    cases e
    simp [ih h']
  | case6 _ _ _ line _ _ ih =>
    obtain ⟨⟨t', r'⟩, h', e⟩ := Option.map_eq_some_iff.mp h
    cases e
    simp [ih h', Ne.symm line]
  | case4 => cases h; exact List.not_mem_nil

/-- No token but a line break breaks a line. -/
theorem newline_readToken {p : Position} {c : Char} {cs rest : List Char} {t : Token}
    (read : readToken p c cs = .ok (t, rest)) (broken : '\n' ∈ t.source) : t.kind = .newline := by
  cases readToken_eq_ok_iff.mp read with
  | mark start =>
    rw [Token.source_of_ne (Start.mark_of start).2.1] at broken
    obtain rfl : '\n' = c := by simpa using broken
    cases start
    rfl
  | braces start spanned => simp [Token.source, unbroken_of_spanBraces spanned] at broken
  | number start spanned | digits start spanned =>
    exact absurd (isNumberChar_of_spanNumber spanned '\n' (by simpa [Token.source] using broken)) (by decide)
  | @word kind _ _ start spanned =>
    have bare : kind ≠ .expression := by rcases Start.word_of start with rfl | ⟨rfl, -⟩ <;> decide
    rw [Token.source_of_ne bare, String.toList_ofList] at broken
    rcases List.mem_cons.mp broken with rfl | broken
    · cases start
    · exact absurd (isWordChar_of_splitWhile spanned _ broken) (by decide)

theorem Start.of_digit {c : Char} (digit : isDigit c = true) (next? : Option Char) : of c next? = .number := by
  have other {d : Char} (h : isDigit d = false) : c ≠ d := by
    rintro rfl
    cases digit.symm.trans h
  unfold of
  rw [if_neg (other rfl), if_neg (other rfl), if_neg (other rfl), if_neg (other rfl), if_neg (other rfl),
    if_neg (other rfl)]
  split <;> rfl

theorem Start.mark_ne_number {c : Char} {next? : Option Char} {kind : TokenKind} (h : of c next? = .mark kind) :
    kind ≠ .number := by
  rintro rfl
  unfold of at h
  repeat' split at h
  all_goals cases h

/-- A number denotes a value, and a name that starts with a digit denotes none. -/
structure Token.IsApt (α : Type) [Scalar α] (t : Token) : Prop where
  number : t.kind = .number → ∃ v : α, readValue t.text = .ok (some v)
  name : t.kind = .identifier → t.text.toList.head?.any isDigit = true → readValue (α := α) t.text = .ok none

theorem isApt_readToken {α : Type} [Scalar α] {p : Position} {c : Char} {cs rest : List Char} {t : Token}
    (read : readToken p c cs = .ok (t, rest)) : t.IsApt α := by
  -- the scan asks for the quantity of the same text
  have value {text : List Char} {quantity? : Option Quantity} (denotes : readQuantity text = .ok quantity?) :
      (readValue (String.ofList text) : Except Error (Option α)) = .ok (quantity?.map Quantity.value) := by
    rw [readValue, String.toList_ofList, denotes]
    rfl
  cases readToken_eq_ok_iff.mp read with
  | mark start => exact ⟨(absurd · (Start.mark_ne_number start)), (absurd · (Start.mark_of start).1)⟩
  | braces => exact ⟨nofun, nofun⟩
  | number start spanned denotes => exact ⟨fun _ => ⟨_, value denotes⟩, nofun⟩
  | digits start spanned denotes => exact ⟨nofun, fun _ _ => value denotes⟩
  | word start spanned =>
    have digit : isDigit c ≠ true := by
      intro digit
      cases start.symm.trans (Start.of_digit digit _)
    refine ⟨?_, fun _ led => absurd (by simpa using led) digit⟩
    rintro rfl
    rcases Start.word_of start with h | ⟨h, -⟩ <;> cases h

/-! ## Whole texts -/

/-- The text behind another one is spelled by tokens: each stands behind a gap, at the place that it names, takes at
least one character, and breaks no line unless it is a line break. The end is marked behind the last gap. -/
inductive IsSpelled : (before : List Char) → List Char → List Token → Prop
  | done {before gap : List Char} (last : IsGap gap []) :
      IsSpelled before gap [⟨.eof, "", .behind (before ++ gap)⟩]
  | token {before gap rest : List Char} {t : Token} {ts : List Token} (apart : IsGap gap (t.source ++ rest))
      (kind : t.kind ≠ .eof) (taken : t.source ≠ []) (unbroken : '\n' ∈ t.source → t.kind = .newline)
      (place : t.position = .behind (before ++ gap)) (others : IsSpelled (before ++ gap ++ t.source) rest ts) :
      IsSpelled before (gap ++ t.source ++ rest) (t :: ts)

/-- A token takes at least one character. -/
theorem source_readToken_ne_nil {p : Position} {c : Char} {cs rest : List Char} {t : Token}
    (read : readToken p c cs = .ok (t, rest)) : t.source ≠ [] := by
  intro empty
  have source := (covers_readToken read).source
  rw [empty, List.nil_append] at source
  rw [← scanToken_eq_readToken] at read
  cases scanned : scanToken p c cs with
  | error e => rw [scanned] at read; cases read
  | ok r =>
    rw [scanned] at read
    have shorter := r.property
    rw [show r.val = (t, rest) from Except.ok.inj read, ← source, List.length_cons] at shorter
    exact absurd shorter (Nat.not_succ_le_self _)

/-- What holds of every token that can be read holds of all tokens of a text. -/
theorem Scans.forall_mem {P : Token → Prop} {p : Position} {cs : List Char} {ts : List Token}
    {ending : Except Error Position} (h : Scans p cs ts ending)
    (one : ∀ p c cs t rest, readToken p c cs = .ok (t, rest) → P t) : ∀ t ∈ ts, P t := by
  induction h with
  | done | fault => nofun
  | token start read others ih => exact List.forall_mem_cons.mpr ⟨one _ _ _ _ _ read, ih⟩

theorem Scans.isSpelled {before cs : List Char} {p q : Position} {ts : List Token} (h : Scans p cs ts (.ok q))
    (place : p = Position.start.after before) : IsSpelled before cs (ts ++ [⟨.eof, "", q⟩]) := by
  generalize fine : (Except.ok q : Except Error Position) = ending at h
  -- the place is that behind all that has been read, and each step adds its gap and its token to that
  induction h generalizing before with
  | @done p cs trivia blank =>
    cases fine
    obtain rfl : trivia = cs := by simpa [blank] using splitTrivia_append false cs
    rw [place, ← Position.after_append, Position.after_start]
    exact .done (isGap_of_splitTrivia blank)
  | fault => cases fine
  | @token p cs trivia rest rest' c t ts ending start read others ih =>
    have covers := covers_readToken read
    have whole := splitTrivia_append false cs
    have apart := isGap_of_splitTrivia start
    rw [start, covers.source, ← List.append_assoc] at whole
    rw [covers.source] at apart
    rw [← whole]
    have behind : p.after trivia = Position.start.after (before ++ trivia) := by rw [place, Position.after_append]
    refine .token apart covers.eof (source_readToken_ne_nil read) (newline_readToken read) ?_ (ih ?_ fine)
    · rw [covers.position, behind, Position.after_start]
    · rw [behind, ← Position.after_append]

/-- A text without faults is its tokens and the gaps in front of them, and the tokens are what they are called. -/
theorem isSpelled_tokens {α : Type} [Scalar α] {text : String} (faultless : (tokens text).2 = none) :
    IsSpelled [] text.toList (tokens text).1 ∧ ∀ t ∈ (tokens text).1, t.IsApt α := by
  obtain ⟨ts, ending, scans, same⟩ := exists_scans .start text.toList
  unfold tokens at faultless ⊢
  rw [same] at faultless ⊢
  cases ending with
  | error e => cases faultless
  | ok q =>
    refine ⟨scans.isSpelled rfl, List.forall_mem_append.mpr ⟨?_, List.forall_mem_singleton.mpr ⟨nofun, nofun⟩⟩⟩
    exact scans.forall_mem fun _ _ _ _ _ read => isApt_readToken read

/-- Two lines with comments, signs, points, nested braces and a name that starts with a digit. -/
def clipper : String := "R1 in out 4.7kohm ; load\r\n\tD1 out 0 1N4148 {a*{b}} # -.5e-3\n\n.param x=-.5e-3"

theorem isSpelled_clipper : (tokens clipper).2 = none ∧ IsSpelled [] clipper.toList (tokens clipper).1 ∧
    (∀ t ∈ (tokens clipper).1, t.IsApt Double) ∧
    (tokens clipper).1.map (fun t => (t.kind, t.text, t.line, t.position.column)) =
      [(.identifier, "R1", 1, 1), (.identifier, "in", 1, 4), (.identifier, "out", 1, 7), (.number, "4.7kohm", 1, 11),
        (.newline, "\n", 1, 26), (.identifier, "D1", 2, 2), (.identifier, "out", 2, 5), (.number, "0", 2, 9),
        (.identifier, "1N4148", 2, 11), (.expression, "a*\x7bb\x7d", 2, 18), (.newline, "\n", 2, 34),
        (.newline, "\n", 3, 1), (.directive, ".param", 4, 1), (.identifier, "x", 4, 8), (.equals, "=", 4, 9),
        (.number, "-.5e-3", 4, 10), (.eof, "", 4, 16)] := by
  have faultless : (tokens clipper).2 = none := by decide +kernel
  exact ⟨faultless, (isSpelled_tokens (α := Double) faultless).1, (isSpelled_tokens faultless).2, by decide +kernel⟩

end AnalogCircuit.Netlist
