import AnalogCircuit.Proofs.Directives
import AnalogCircuit.Proofs.Lookahead
/-!
# Layout

Blanks between tokens and at the ends of lines, comments behind lines, carriage returns in front of line breaks, and
lines that hold nothing: none of them matters for what a netlist declares. A gap that is put between two tokens leaves
both of them as they are, since no token goes on into a gap; and a line that holds nothing adds a break where there is
one already, or at an end.
-/

namespace AnalogCircuit.Netlist

/-! ## What a text holds -/

/-- The text has no fault, and its tokens have these contents. -/
def Holds (cs : List Char) (contents : List (TokenKind × String)) : Prop :=
  ∃ ts q, Scans .start cs ts (.ok q) ∧ ts.map Token.content = contents

section

variable {cs cs' rest : List Char} {c : Char} {t : Token} {contents contents' : List (TokenKind × String)}

theorem Scans.holds {p q : Position} {ts : List Token} (h : Scans p cs ts (.ok q)) :
    Holds cs (ts.map Token.content) := by
  obtain ⟨ts', ending, scans, same, fine⟩ := h.move .start
  cases ending with
  | error e => cases fine
  | ok q' => exact ⟨ts', q', scans, same⟩

namespace Holds

/-- The text may start anywhere. -/
theorem at_position (h : Holds cs contents) (p : Position) :
    ∃ ts q, Scans p cs ts (.ok q) ∧ ts.map Token.content = contents := by
  obtain ⟨ts, q, scans, same⟩ := h
  obtain ⟨ts', ending, scans', same', fine⟩ := scans.move p
  cases ending with
  | error e => cases fine
  | ok q' => exact ⟨ts', q', scans', same'.trans same⟩

theorem nil (blank : (splitTrivia false cs).2 = []) : Holds cs [] :=
  ⟨[], _, .done (Prod.ext rfl blank), rfl⟩

/-- A token behind trivia is followed by what the rest holds. -/
theorem token (start : (splitTrivia false cs).2 = c :: cs') (read : readToken .start c cs' = .ok (t, rest))
    (others : Holds rest contents) : Holds cs (t.content :: contents) := by
  have moved := readToken_move .start (Position.start.after (splitTrivia false cs).1) c cs'
  rw [read] at moved
  cases read' : readToken (Position.start.after (splitTrivia false cs).1) c cs' with
  | error e => rw [read'] at moved; cases moved
  | ok r =>
    rw [read'] at moved
    cases moved
    obtain ⟨ts, q, scans, rfl⟩ := others.at_position
      ((Position.start.after (splitTrivia false cs).1).after t.source)
    exact ⟨_, q, .token (Prod.ext rfl start) read' scans, rfl⟩

/-- A text holds nothing, or a token and what the rest holds. -/
theorem cases (h : Holds cs contents) : (splitTrivia false cs).2 = [] ∧ contents = [] ∨
    ∃ c cs' t rest others, (splitTrivia false cs).2 = c :: cs' ∧ readToken .start c cs' = .ok (t, rest) ∧
      Holds rest others ∧ contents = t.content :: others := by
  obtain ⟨ts, q, scans, rfl⟩ := h
  cases scans with
  | done blank => exact .inl ⟨congrArg Prod.snd blank, rfl⟩
  | @token _ _ trivia cs' rest c t ts _ start read others =>
    have moved := readToken_move (Position.start.after trivia) .start c cs'
    rw [read] at moved
    cases read' : readToken .start c cs' with
    | error e => rw [read'] at moved; cases moved
    | ok r =>
      rw [read'] at moved
      cases moved
      exact .inr ⟨c, cs', _, rest, _, congrArg Prod.snd start, read', others.holds, rfl⟩

theorem unique (h : Holds cs contents) (h' : Holds cs contents') : contents = contents' := by
  obtain ⟨ts, q, scans, rfl⟩ := h
  obtain ⟨ts', q', scans', rfl⟩ := h'
  rw [(scans.unique scans').1]

/-- Only what comes behind the trivia matters. -/
theorem of_rest (same : (splitTrivia false cs').2 = (splitTrivia false cs).2) (h : Holds cs contents) :
    Holds cs' contents := by
  rcases h.cases with ⟨blank, rfl⟩ | ⟨c, r, t, rest, others, start, read, holds, rfl⟩
  · exact .nil (same.trans blank)
  · exact .token (same.trans start) read holds

/-- A text in front of a break, and a text behind it. -/
theorem append_break (h : Holds cs contents) (h' : Holds cs' contents') :
    Holds (cs ++ '\n' :: cs') (contents ++ (.newline, "\n") :: contents') := by
  obtain ⟨ts, q, scans, rfl⟩ := h
  obtain ⟨ts', q', scans', rfl⟩ := h'.at_position (q.next '\n')
  refine ⟨_, q', scans.append_break scans', ?_⟩
  rw [List.map_append, List.map_cons]
  rfl

/-- Nothing reaches across a break. -/
theorem of_append_break (h : Holds (cs ++ '\n' :: cs') contents) : ∃ contents₁ contents₂, Holds cs contents₁ ∧
    Holds cs' contents₂ ∧ contents = contents₁ ++ (.newline, "\n") :: contents₂ := by
  obtain ⟨ts, q, scans, rfl⟩ := h
  obtain ⟨ts₁, ending, scans₁, -⟩ := exists_scans .start cs
  cases ending with
  | error e => cases (scans.unique (scans₁.append_fault cs')).2
  | ok q₁ =>
    obtain ⟨ts₂, ending, scans₂, -⟩ := exists_scans (q₁.next '\n') cs'
    obtain ⟨rfl, rfl⟩ := scans.unique (scans₁.append_break scans₂)
    refine ⟨_, _, scans₁.holds, scans₂.holds, ?_⟩
    rw [List.map_append, List.map_cons]
    rfl

end Holds

/-! ## Trivia -/

/-- A text that a break comes in front of, or the end. -/
def AtBreak (rest : List Char) : Prop := ∀ d, rest.head? = some d → d = '\n'

/-- The blanks of a line. -/
def IsBlank (c : Char) : Prop := c = ' ' ∨ c = '\t' ∨ c = '\r'

theorem splitTrivia_blank (blank : IsBlank c) (cs : List Char) :
    (splitTrivia false (c :: cs)).2 = (splitTrivia false cs).2 := by
  rcases blank with rfl | rfl | rfl <;> rfl

theorem splitTrivia_blanks {blanks : List Char} (blank : ∀ b ∈ blanks, IsBlank b) (cs : List Char) :
    (splitTrivia false (blanks ++ cs)).2 = (splitTrivia false cs).2 := by
  induction blanks with
  | nil => rfl
  | cons b blanks ih =>
    obtain ⟨first, blank⟩ := List.forall_mem_cons.mp blank
    rw [List.cons_append, splitTrivia_blank first, ih blank]

theorem splitTrivia_atBreak (inComment : Bool) (ends : AtBreak rest) : (splitTrivia inComment rest).2 = rest := by
  cases rest with
  | nil => rfl
  | cons d rest =>
    obtain rfl := ends d rfl
    rfl

theorem splitTrivia_inComment {text : List Char} (line : '\n' ∉ text) (ends : AtBreak rest) :
    (splitTrivia true (text ++ rest)).2 = rest := by
  induction text with
  | nil => exact splitTrivia_atBreak true ends
  | cons d text ih =>
    rw [List.mem_cons, not_or] at line
    rw [List.cons_append, splitTrivia]
    simpa [Ne.symm line.1] using ih line.2

/-- A comment reaches as far as its line. -/
theorem splitTrivia_marked {text : List Char} (mark : c = '#' ∨ c = ';') (line : '\n' ∉ text) (ends : AtBreak rest) :
    (splitTrivia false (c :: text ++ rest)).2 = rest := by
  have inside := splitTrivia_inComment line ends
  rcases mark with rfl | rfl <;> exact inside

theorem IsGap.splitTrivia {gap : List Char} (h : IsGap gap rest) (ends : AtBreak rest) :
    (splitTrivia false (gap ++ rest)).2 = rest := by
  induction h with
  | nil => exact splitTrivia_atBreak false ends
  | blank blank more ih => exact (splitTrivia_blank blank _).trans (ih ends)
  | comment mark line _ => exact splitTrivia_marked mark line ends

/-- What starts a token is no trivia. -/
theorem splitTrivia_of_readToken {p : Position} (read : readToken p c cs = .ok (t, rest)) :
    splitTrivia false (c :: cs) = ([], c :: cs) := by
  rw [splitTrivia]
  dsimp only
  rw [if_neg]
  intro inside
  have trivia : c = '#' ∨ c = ';' ∨ c = ' ' ∨ c = '\t' ∨ c = '\r' := by
    simpa [or_assoc] using (Bool.and_eq_true_iff.mp inside).2
  rcases trivia with rfl | rfl | rfl | rfl | rfl <;> cases read

/-! ## Between tokens -/

/-- The place between two texts is not inside a token: in front of it there are tokens, blanks and comments up to the
ends of their lines. -/
inductive Between : List Char → List Char → Prop
  | here {after : List Char} : Between [] after
  | blank {c : Char} {before after : List Char} (blank : IsBlank c) (more : Between before after) :
      Between (c :: before) after
  | comment {c : Char} {text before after : List Char} (mark : c = '#' ∨ c = ';') (line : '\n' ∉ text)
      (ends : AtBreak (before ++ after)) (more : Between before after) : Between (c :: text ++ before) after
  | token {c : Char} {s before after : List Char} {t : Token}
      (read : readToken .start c (s ++ (before ++ after)) = .ok (t, before ++ after)) (more : Between before after) :
      Between (c :: s ++ before) after

/-- The characters that a gap starts with. -/
def StartsGap (c : Char) : Prop := IsBlank c ∨ c = '#' ∨ c = ';'

/-- No token goes on into a gap. -/
theorem noFurther_gap (starts : StartsGap c) (before gap after : List Char) :
    NoFurther (before ++ after) (before ++ (c :: gap ++ after)) := by
  have plain : isWordChar c = false ∧ c ≠ '.' ∧ (c == '+' || c == '-') = false ∧ Numeral.isDigit c = false := by
    rcases starts with (rfl | rfl | rfl) | rfl | rfl <;> decide
  obtain ⟨word, point, sign, digit⟩ := plain
  rcases before with _ | ⟨x, before⟩
  · refine ⟨?_, ?_, ?_⟩
    · simp [startsWord, word]
    · simp [point]
    · cases h : gap ++ after <;> simp [startsSigned, sign, h]
  · refine ⟨id, id, ?_⟩
    cases before with
    | nil => simp [startsSigned, digit]
    | cons y before => exact id

/-- A gap between tokens changes nothing of what a text holds. -/
theorem Between.holds {before after gap : List Char} (between : Between before after) (starts : StartsGap c)
    (unbroken : '\n' ∉ c :: gap) (same : (splitTrivia false (c :: gap ++ after)).2 = (splitTrivia false after).2)
    (h : Holds (before ++ after) contents) : Holds (before ++ (c :: gap ++ after)) contents := by
  induction between generalizing contents with
  | here => exact h.of_rest same
  | blank blank more ih =>
    have inner := ih same (h.of_rest (splitTrivia_blank blank _).symm)
    exact inner.of_rest (splitTrivia_blank blank _)
  | @comment m text before after mark line ends more ih =>
    rw [List.append_assoc] at h ⊢
    have rest : Holds (before ++ after) contents := by
      refine h.of_rest ?_
      rw [splitTrivia_marked mark line ends, splitTrivia_atBreak false ends]
    cases before with
    | nil =>
      -- the comment goes on to the end of its line
      have line' : '\n' ∉ text ++ c :: gap := by simpa [line] using unbroken
      refine rest.of_rest ?_
      rw [splitTrivia_atBreak false ends, List.nil_append, List.cons_append, ← List.append_assoc, ← List.cons_append]
      exact splitTrivia_marked mark line' ends
    | cons d before =>
      have ends' : AtBreak (d :: before ++ (c :: gap ++ after)) := ends
      refine (ih same rest).of_rest ?_
      rw [splitTrivia_marked mark line ends', splitTrivia_atBreak false ends']
  | @token d s before after t read more ih =>
    rw [List.append_assoc] at h ⊢
    have read' := readToken_noFurther (noFurther_gap starts before gap after) read
    rcases h.cases with ⟨blank, -⟩ | ⟨d', cs', t', rest', others, start, found, holds, rfl⟩
    · rw [List.cons_append, splitTrivia_of_readToken read] at blank
      cases blank
    · rw [List.cons_append, splitTrivia_of_readToken read] at start
      cases start
      cases read.symm.trans found
      exact .token (congrArg Prod.snd (splitTrivia_of_readToken read')) read' (ih same holds)

/-- No token reaches across the end of its line. -/
theorem exists_append_of_readToken {p : Position} {before after : List Char} (ends : AtBreak after)
    (read : readToken p c (before ++ after) = .ok (t, rest)) : ∃ s more, before = s ++ more ∧ rest = more ++ after := by
  have source := (covers_readToken read).source
  by_cases broken : '\n' ∈ t.source
  · -- a line break takes one character
    obtain rfl := (covers_readToken read).newline (newline_readToken read broken)
    cases read
    exact ⟨[], before, rfl, rfl⟩
  rw [← List.cons_append] at source
  rcases List.append_eq_append_iff.mp source with ⟨more, covered, rest⟩ | ⟨more, whole, same⟩
  · cases more with
    | nil =>
      refine ⟨before, [], (List.append_nil _).symm, ?_⟩
      simpa using rest.symm
    | cons d more =>
      obtain rfl := ends d (by rw [rest]; rfl)
      exact absurd (covered ▸ List.mem_append_right _ List.mem_cons_self) broken
  · obtain ⟨d, s, spelled⟩ := List.exists_cons_of_ne_nil (source_readToken_ne_nil read)
    rw [spelled, List.cons_append, List.cons.injEq] at whole
    exact ⟨s, more, whole.2, same⟩

/-- In a text without faults every end of a line is between tokens. -/
theorem Holds.between {before after : List Char} (ends : AtBreak after) (h : Holds (before ++ after) contents) :
    Between before after := by
  generalize size : before.length = n
  induction n using Nat.strong_induction_on generalizing before contents with
  | _ n ih =>
    rcases before with _ | ⟨c, before⟩
    · exact .here
    have shorter {s more : List Char} (same : before = s ++ more) : more.length < n := by
      rw [← size, same, List.length_cons, List.length_append]
      omega
    by_cases blank : IsBlank c
    · exact .blank blank (ih _ (shorter (s := []) rfl) (h.of_rest (splitTrivia_blank blank _).symm) rfl)
    by_cases mark : c = '#' ∨ c = ';'
    · -- the comment goes on to the first break
      obtain ⟨text, more, same, line, broken⟩ : ∃ text more, before = text ++ more ∧ '\n' ∉ text ∧ AtBreak more :=
        ⟨before.takeWhile (· != '\n'), before.dropWhile (· != '\n'), List.takeWhile_append_dropWhile.symm,
          fun h => by simpa using List.mem_takeWhile_imp h,
          fun d first => by simpa [first] using List.head?_dropWhile_not (· != '\n') before⟩
      have ends' : AtBreak (more ++ after) := by
        cases more with
        | nil => exact ends
        | cons d more => exact broken
      subst same
      rw [← List.cons_append, List.append_assoc] at h
      refine .comment mark line ends' (ih _ (shorter rfl) (h.of_rest ?_) rfl)
      rw [splitTrivia_marked mark line ends', splitTrivia_atBreak false ends']
    have start : splitTrivia false (c :: (before ++ after)) = ([], c :: (before ++ after)) := by
      unfold IsBlank at blank
      rw [not_or] at mark
      simp only [not_or] at blank
      simp [splitTrivia, mark, blank]
    rcases h.cases with ⟨blank, -⟩ | ⟨c', cs', t, rest, others, start', read, holds, rfl⟩
    · rw [List.cons_append, start] at blank
      cases blank
    · rw [List.cons_append, start] at start'
      cases start'
      obtain ⟨s, more, rfl, rfl⟩ := exists_append_of_readToken ends read
      rw [List.append_assoc] at read
      exact .token read (ih _ (shorter rfl) holds rfl)

end

/-! ## Edits of the layout -/

/-- One change of the layout of a text. -/
inductive LayoutEdit : List Char → List Char → Prop
  /-- A blank between tokens or at the end of a line, such as a carriage return in front of a line break. -/
  | blank {before after : List Char} {c : Char} (between : Between before after) (blank : IsBlank c) :
      LayoutEdit (before ++ after) (before ++ c :: after)
  /-- A comment at the end of a line, perhaps with blanks behind it. -/
  | comment {before blanks rest text : List Char} {c : Char} (between : Between before (blanks ++ rest))
      (mark : c = '#' ∨ c = ';') (line : '\n' ∉ text) (blank : ∀ b ∈ blanks, IsBlank b) (ends : AtBreak rest) :
      LayoutEdit (before ++ (blanks ++ rest)) (before ++ (c :: text ++ (blanks ++ rest)))
  /-- A line that holds nothing or a comment, in front of a line. -/
  | line {before after gap : List Char} (starts : before = [] ∨ ∃ lines, before = lines ++ ['\n'])
      (empty : IsGap gap ('\n' :: after)) : LayoutEdit (before ++ after) (before ++ (gap ++ '\n' :: after))
  /-- A line that holds nothing or a comment, behind the last one. -/
  | lastLine {cs gap : List Char} (empty : IsGap gap []) : LayoutEdit cs (cs ++ '\n' :: gap)

/-- A text has a layout that comes from that of another one by any number of changes. -/
def Relaid : List Char → List Char → Prop := Relation.ReflTransGen LayoutEdit

section

variable {cs cs' : List Char} {contents contents₁ contents₂ : List (TokenKind × String)}

theorem rows_append_break : rows (contents₁ ++ (.newline, "\n") :: contents₂) = rows contents₁ ++ rows contents₂ := by
  unfold rows
  rw [List.splitOnP_append_cons _ _ (by rfl), List.filter_append]

theorem rows_nil : rows [] = [] := rfl

/-- No change of the layout makes a fault, and the rows stay. -/
theorem LayoutEdit.holds (edit : LayoutEdit cs cs') (h : Holds cs contents) :
    ∃ contents', Holds cs' contents' ∧ rows contents' = rows contents := by
  cases edit with
  | @blank before after c between blank =>
    have unbroken : '\n' ∉ [c] := by rcases blank with rfl | rfl | rfl <;> decide
    exact ⟨contents, @Between.holds _ _ _ _ [] between (.inl blank) unbroken (splitTrivia_blank blank _) h, rfl⟩
  | @comment before blanks rest text c between mark line blank ends =>
    refine ⟨contents, between.holds (.inr mark) ?_ ?_ h, rfl⟩
    · rcases mark with rfl | rfl <;> simpa using line
    · -- the blanks become a part of the comment
      have line' : '\n' ∉ text ++ blanks := by
        rw [List.mem_append, not_or]
        refine ⟨line, fun broken => ?_⟩
        rcases blank _ broken with h | h | h <;> cases h
      rw [splitTrivia_blanks blank, splitTrivia_atBreak false ends, ← List.append_assoc]
      exact splitTrivia_marked mark line' ends
  | @line before after gap starts isGap =>
    -- the line holds nothing, and a break behind it
    have empty {contents : List (TokenKind × String)} (h : Holds after contents) :
        Holds (gap ++ '\n' :: after) ((.newline, "\n") :: contents) :=
      .token (t := ⟨.newline, "\n", .start⟩) (isGap.splitTrivia (by rintro d ⟨⟩; rfl)) rfl h
    rcases starts with rfl | ⟨lines, rfl⟩
    · exact ⟨_, empty h, @rows_append_break [] _⟩
    · rw [List.append_assoc, List.singleton_append] at h
      obtain ⟨contents₁, contents₂, first, second, rfl⟩ := h.of_append_break
      rw [List.append_assoc, List.singleton_append]
      refine ⟨_, first.append_break (empty second), ?_⟩
      rw [rows_append_break, rows_append_break]
      exact congrArg _ (@rows_append_break [] _)
  | lastLine isGap =>
    have blank := isGap.splitTrivia nofun
    rw [List.append_nil] at blank
    refine ⟨_, h.append_break (.nil blank), ?_⟩
    rw [rows_append_break, rows_nil, List.append_nil]

theorem Relaid.holds (relaid : Relaid cs cs') (h : Holds cs contents) :
    ∃ contents', Holds cs' contents' ∧ rows contents' = rows contents := by
  induction relaid with
  | refl => exact ⟨contents, h, rfl⟩
  | tail _ edit ih =>
    obtain ⟨contents₁, h₁, same₁⟩ := ih
    obtain ⟨contents₂, h₂, same₂⟩ := edit.holds h₁
    exact ⟨contents₂, h₂, same₂.trans same₁⟩

/-- A text whose lines have no faults has none. -/
theorem isScanned_of_lines (scanned : ∀ l ∈ cs.splitOn '\n', IsScanned l) : IsScanned cs := by
  induction cs using lines_induction with
  | last cs unbroken =>
    rw [List.splitOn_eq_singleton unbroken] at scanned
    exact scanned cs List.mem_cons_self
  | line cs more unbroken ih =>
    rw [List.splitOn_append_cons_self_of_not_mem unbroken] at scanned
    obtain ⟨⟨ts, q, first⟩, others⟩ := List.forall_mem_cons.mp scanned
    obtain ⟨ts', q', rest⟩ := (ih others).at (q.next '\n')
    exact ⟨_, q', first.append_break rest⟩

end

variable {α : Type} [Scalar α]

/-- If a text denotes a netlist, so does every text with another layout, and the netlists differ at most in the numbers
of lines. -/
theorem parse_of_relaid {text text' : String} (relaid : Relaid text.toList text'.toList) {n : Netlist α}
    (read : parse text = .ok n) : ∃ n', parse text' = .ok n' ∧ AgreeUpToLines n n' := by
  -- a line with a fault is not read, so there is none
  have scanned : IsScanned text.toList := by
    obtain ⟨m, folded, -⟩ := parse_eq_ok_iff_foldlM.mp read
    exact isScanned_of_lines (isScanned_of_foldlM folded)
  obtain ⟨ts, q, scans⟩ := scanned
  obtain ⟨contents', ⟨ts', q', scans', rfl⟩, same⟩ := relaid.holds scans.holds
  exact parse_of_rows scans scans' same read

/-- A resistor, and the same one with a comment and a line break behind it. -/
theorem parse_resistor_relaid : ∃ n n' : Netlist ℚ, Relaid "R1 a 0 1k".toList "R1 a 0 1k;load\r\n".toList ∧
    parse "R1 a 0 1k" = .ok n ∧ parse "R1 a 0 1k;load\r\n" = .ok n' ∧ AgreeUpToLines n n' ∧ n.nodes = ["a"] := by
  have resistor {before after : List Char} (more : Between before after)
      (zero : readToken .start '0' (' ' :: '1' :: 'k' :: (before ++ after)) =
        .ok (⟨.number, "0", .start⟩, ' ' :: '1' :: 'k' :: (before ++ after)))
      (value : readToken .start '1' ('k' :: (before ++ after)) = .ok (⟨.number, "1k", .start⟩, before ++ after)) :
      Between ("R1 a 0 1k".toList ++ before) after :=
    @Between.token 'R' ['1'] (" a 0 1k".toList ++ before) _ _ rfl <| .blank (.inl rfl) <|
      @Between.token 'a' [] (" 0 1k".toList ++ before) _ _ rfl <| .blank (.inl rfl) <|
      @Between.token '0' [] (" 1k".toList ++ before) _ _ zero <| .blank (.inl rfl) <|
      @Between.token '1' ['k'] _ _ _ value more
  have commented : LayoutEdit "R1 a 0 1k".toList "R1 a 0 1k;load".toList :=
    @LayoutEdit.comment _ [] [] "load".toList ';' (resistor .here (by decide +kernel) (by decide +kernel)) (.inr rfl)
      (by decide) nofun nofun
  have broken : LayoutEdit "R1 a 0 1k;load".toList "R1 a 0 1k;load\n".toList := .lastLine .nil
  have comment : Between ";load".toList "\n".toList :=
    @Between.comment ';' "load".toList _ _ (.inr rfl) (by decide) (by rintro d ⟨⟩; rfl) .here
  have returned : LayoutEdit "R1 a 0 1k;load\n".toList "R1 a 0 1k;load\r\n".toList :=
    .blank (resistor comment (by decide +kernel) (by decide +kernel)) (.inr (.inr rfl))
  have relaid : Relaid "R1 a 0 1k".toList "R1 a 0 1k;load\r\n".toList :=
    .tail (.tail (.single commented) broken) returned
  have nodes : (parse "R1 a 0 1k" : Except Error (Netlist ℚ)).toOption.map (·.nodes) = some ["a"] := by decide +kernel
  cases read : (parse "R1 a 0 1k" : Except Error (Netlist ℚ)) with
  | error e => rw [read] at nodes; cases nodes
  | ok n =>
    rw [read] at nodes
    obtain ⟨n', read', agree⟩ := parse_of_relaid relaid read
    exact ⟨n, n', relaid, rfl, read', agree, Option.some.inj nodes⟩

end AnalogCircuit.Netlist
