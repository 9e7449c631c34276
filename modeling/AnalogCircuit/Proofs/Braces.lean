import AnalogCircuit.Proofs.Literals
import AnalogCircuit.Proofs.Taking
/-!
# Literals in braces

The value of an element is a number, or an expression in braces. A literal is a token of its own either way, and the
value that is taken from the token is the same. So an element has the same values, bit for bit, whether its literals
stand bare or in braces.
-/

namespace AnalogCircuit.Netlist

open Numeral
open AnalogCircuit.Expr (IsNumeral)

/-! ## Tokens for literals -/

/-- The token is a literal for the quantity, as a number or as an expression. -/
structure Token.IsLiteral (q : Quantity) (t : Token) : Prop where
  kind : t.kind = .number ∨ t.kind = .expression
  literal : Netlist.IsLiteral q t.text.toList

section

variable {c : Char} {cs text rest : List Char} {q : Quantity}

/-- A point in front of a numeral has a digit behind it. -/
theorem digit_of_point (h : IsNumeral ('.' :: cs) q rest) : cs.head?.any isDigit = true := by
  have digitless (exponent : Option (Bool × List Char)) : Literal.magnitude? ⟨false, [], [], exponent⟩ = none := by
    simp [Literal.magnitude?]
  -- the point is the one of the mantissa, and the digits cannot all be missing
  generalize whole : '.' :: cs = text at h
  cases h with
  | @intro ms es ss ds ds' _ exponent magnitude n mantissa exponential denotes scale =>
  cases mantissa with
  | integer digits =>
    cases ms with
    | nil => rw [digitless] at denotes; cases denotes
    | cons d ms =>
      cases whole
      cases digits '.' List.mem_cons_self
  | pointed digits digits' =>
    cases ds with
    | cons d ds =>
      cases whole
      cases digits '.' List.mem_cons_self
    | nil =>
      cases ds' with
      | nil => rw [digitless] at denotes; cases denotes
      | cons d ds' =>
        cases whole
        exact digits' d List.mem_cons_self

theorem start_of_isNumeral (h : IsNumeral (c :: cs) q rest) : Start.of c cs.head? = .number := by
  obtain ⟨c, cs, same, first⟩ := Expr.startsNumber_of_spanQuantity (Expr.spanQuantity_of_isNumeral h)
  cases same
  simp only [Expr.startsNumber, Bool.or_eq_true, beq_iff_eq] at first
  rcases first with digit | rfl
  · exact Start.of_digit digit _
  · rw [Start.of_point, digit_of_point h]
    rfl

/-- A bare literal is a number, in front of every text that does not go on with it. -/
theorem readToken_of_isNumeral (h : IsNumeral (c :: cs) q []) (p : Position) (more : NoFurther [] rest) :
    ∃ t, readToken p c (cs ++ rest) = .ok (t, rest) ∧ t.IsLiteral q := by
  have literal := isLiteral_of_isNumeral h
  have whole : spanNumber (c :: cs) = (c :: cs, []) := by
    obtain ⟨_, ss, found, -, -, scale⟩ := spanSigned_of_isNumeral h
    obtain ⟨-, -, -, letters⟩ := spanScale_of_isScale scale
    unfold spanNumber
    rw [found, letters]
    simp [between]
  have alone : readToken p c (cs ++ []) = .ok (⟨.number, String.ofList (c :: cs), p⟩, []) := by
    rw [List.append_nil]
    exact readToken_eq_ok_iff.mpr (.number (start_of_isNumeral h) whole literal.readQuantity)
  exact ⟨_, readToken_noFurther more alone, .inl rfl, by rwa [String.toList_ofList]⟩

theorem spanBraces_of_plain (plain : ∀ c ∈ text, c ≠ '\n' ∧ c ≠ '\x7b' ∧ c ≠ '\x7d') (rest : List Char) :
    spanBraces 0 (text ++ '\x7d' :: rest) = some (text, rest) := by
  induction text with
  | nil => rfl
  | cons c text ih =>
    obtain ⟨⟨line, opens, closes⟩, plain⟩ := List.forall_mem_cons.mp plain
    rw [List.cons_append, spanBraces, if_neg line, if_neg opens, if_neg closes, ih plain]
    rfl

theorem IsLiteral.braceless (literal : IsLiteral q text) : ∀ c ∈ text, c ≠ '\x7b' ∧ c ≠ '\x7d' := by
  have blank {c : Char} (blank : Text.isAsciiBlank c = true) : c ≠ '\x7b' ∧ c ≠ '\x7d' := by
    constructor <;> rintro rfl <;> cases blank
  have inside {c : Char} (inside : isNumeralChar c = true) : c ≠ '\x7b' ∧ c ≠ '\x7d' := by
    constructor <;> rintro rfl <;> cases inside
  cases literal with
  | intro before numeral behind =>
  refine List.forall_mem_append.mpr ⟨fun c hc => blank (before c hc), List.forall_mem_append.mpr ⟨fun c hc => ?_, ?_⟩⟩
  · exact inside (isNumeralChar_of_isNumeral numeral c hc)
  · exact fun c hc => blank (behind c hc)

/-- A literal in braces on one line is an expression. -/
theorem readToken_of_isLiteral (literal : IsLiteral q text) (unbroken : '\n' ∉ text) (p : Position) (rest : List Char) :
    ∃ t, readToken p '\x7b' (text ++ '\x7d' :: rest) = .ok (t, rest) ∧ t.IsLiteral q := by
  have plain : ∀ c ∈ text, c ≠ '\n' ∧ c ≠ '\x7b' ∧ c ≠ '\x7d' :=
    fun c hc => ⟨fun line => unbroken (line ▸ hc), literal.braceless c hc⟩
  refine ⟨⟨.expression, String.ofList text, p⟩, ?_, .inr rfl, by rwa [String.toList_ofList]⟩
  exact readToken_eq_ok_iff.mpr (.braces rfl (spanBraces_of_plain plain rest))

end

/-! ## Values of tokens -/

section

variable {α : Type} [Scalar α] {l rest : Line} {t t' : Token} {q : Quantity}

/-- A literal has one value, bare and in braces. -/
theorem Token.IsLiteral.hasValue_iff (h : t.IsLiteral q) {e : Expr Double} : t.HasValue e ↔ e = .num q.value := by
  have number : Expr.mkNum (q.value : Double) = .num q.value :=
    mkNum_of_unsigned (Double.unsigned_value h.literal.unsigned)
  constructor
  · rintro (⟨-, parsed⟩ | ⟨-, read⟩)
    · rw [parse_of_isLiteral h.literal] at parsed
      exact (Except.ok.inj parsed).symm
    · rw [readValue_of_isLiteral h.literal] at read
      cases read
      exact number
  · rintro rfl
    rcases h.kind with kind | kind
    · exact number ▸ .number (.inl kind) (readValue_of_isLiteral h.literal)
    · exact .expression kind (parse_of_isLiteral h.literal)

namespace Line

/-- The last token is not read past a fault. -/
theorem fault_of_take {kind : TokenKind} {lt : rest.tokens.length < l.tokens.length}
    (taken : l.take kind = .ok ⟨(t, rest), lt⟩) (last : rest.tokens = []) : l.fault = none := by
  cases fault : l.fault with
  | none => rfl
  | some e =>
    have more : l.tokens ≠ [] := by rw [(take_eq_ok taken).2.1]; nofun
    exact absurd last (stable_fault e l rest kind t lt ⟨fault, more⟩ taken).2

end Line

/-! ## Lines with the same values -/

/-- The tokens are the same, or both are literals for the quantity. -/
def Token.SameValue (q : Quantity) (t t' : Token) : Prop := t'.content = t.content ∨ t.IsLiteral q ∧ t'.IsLiteral q

theorem Token.SameValue.symm (h : Token.SameValue q t t') : Token.SameValue q t' t := h.imp Eq.symm And.symm

theorem Token.SameValue.kind (h : Token.SameValue q t t') :
    t'.kind = t.kind ∨ (t.kind = .number ∨ t.kind = .expression) ∧ (t'.kind = .number ∨ t'.kind = .expression) :=
  h.imp (congrArg Prod.fst) fun ⟨literal, literal'⟩ => ⟨literal.kind, literal'.kind⟩

theorem Token.SameValue.hasValue (h : Token.SameValue q t t') {e : Expr Double} (value : t.HasValue e) :
    t'.HasValue e := by
  rcases h with same | ⟨literal, literal'⟩
  · obtain ⟨kind, text⟩ := Prod.mk.inj same
    exact value.of_content kind text
  · rw [literal.hasValue_iff] at value
    exact literal'.hasValue_iff.mpr value

end

namespace Line

/-- The lines hold the same tokens, except that a literal for the quantity may stand bare in one of them and in braces
in the other one. -/
structure SameValues (q : Quantity) (l l' : Line) : Prop where
  tokens : List.Forall₂ (Token.SameValue q) l.tokens l'.tokens
  ending : l'.ending = l.ending
  fault : l'.fault = l.fault

namespace SameValues

variable {q : Quantity} {l l' rest : Line} {t : Token}

theorem atEnd (h : SameValues q l l') : l'.atEnd = l.atEnd := by
  have tokens := h.tokens
  unfold Line.atEnd
  generalize l.tokens = ts, l'.tokens = ts' at tokens ⊢
  cases tokens <;> rfl

/-- The next tokens are the same, or literals for the quantity. -/
theorem next (h : SameValues q l l') : Token.SameValue q l.next l'.next := by
  have tokens := h.tokens
  unfold Line.next
  rw [h.ending]
  generalize l.tokens = ts, l'.tokens = ts' at tokens ⊢
  cases tokens with
  | nil => exact .inl rfl
  | cons first => exact first

theorem symm (h : SameValues q l l') : SameValues q l' l where
  tokens := (h.tokens.imp fun _ _ same => (same.symm : Token.SameValue q _ _)).flip
  ending := h.ending.symm
  fault := h.fault.symm

/-- A step past a token in one line is one in the other. -/
theorem take (h : SameValues q l l') {kind : TokenKind} {lt : rest.tokens.length < l.tokens.length}
    (taken : l.take kind = .ok ⟨(t, rest), lt⟩) : ∃ t' rest' lt', l'.take t'.kind = .ok ⟨(t', rest'), lt'⟩ ∧
      Token.SameValue q t t' ∧ SameValues q rest rest' := by
  obtain ⟨-, tokens, same⟩ := take_eq_ok taken
  have values := h.tokens
  rw [tokens] at values
  obtain ⟨t', ts', first, others, tokens'⟩ := List.forall₂_cons_left_iff.mp values
  have faultless : ts' = [] → l'.fault = none := by
    rintro rfl
    rw [h.fault]
    exact fault_of_take taken (List.forall₂_nil_right_iff.mp others)
  obtain ⟨lt', taken'⟩ := take_of_tokens tokens' faultless
  refine ⟨t', _, lt', taken', first, ?_⟩
  rw [same]
  exact { h with tokens := others }

/-- A word is the same in both lines. -/
theorem take_word (h : SameValues q l l') {kind : TokenKind} {lt : rest.tokens.length < l.tokens.length}
    (word : kind ≠ .number ∧ kind ≠ .expression) (taken : l.take kind = .ok ⟨(t, rest), lt⟩) :
    ∃ t' rest' lt', l'.take kind = .ok ⟨(t', rest'), lt'⟩ ∧ t'.text = t.text ∧ SameValues q rest rest' := by
  obtain ⟨rfl, -⟩ := take_eq_ok taken
  obtain ⟨t', rest', lt', taken', same | ⟨literal, -⟩, values⟩ := h.take taken
  · obtain ⟨kind, text⟩ := Prod.mk.inj same
    exact ⟨t', rest', lt', kind ▸ taken', text, values⟩
  · exact absurd literal.kind (not_or.mpr word)

/-- The same value is taken from both lines. -/
theorem takeValue (h : SameValues q l l') {e : Expr Double} {lt : rest.tokens.length < l.tokens.length}
    (taken : l.takeValue = .ok ⟨(e, rest), lt⟩) : ∃ rest' lt', l'.takeValue = .ok ⟨(e, rest'), lt'⟩ ∧
      SameValues q rest rest' := by
  obtain ⟨t, first, value⟩ := takeValue_eq_ok_iff.mp taken
  obtain ⟨t', rest', lt', first', same, values⟩ := h.take first
  exact ⟨rest', lt', takeValue_eq_ok_iff.mpr ⟨t', first', same.hasValue value⟩, values⟩

/-- Behind a word there is an equals sign in both lines or in neither. -/
theorem unassigned (h : SameValues q l l') (unassigned : l.next.kind ≠ .equals) : l'.next.kind ≠ .equals := by
  rcases h.next.kind with kind | ⟨-, kind | kind⟩ <;> rw [kind]
  · exact unassigned
  all_goals decide

/-- An element gets the same values, model and settings from both lines. -/
theorem sets (h : SameValues q l l') {e e' : Element Double} (form : Sets e l e' rest) :
    ∃ rest', Sets e l' e' rest' ∧ SameValues q rest rest' := by
  induction form generalizing l' with
  | ended ended => exact ⟨l', .ended (h.atEnd.trans ended), h⟩
  | assigned first second third _ ih =>
    obtain ⟨word', l₁', lt₁, first', same, values⟩ := h.take_word (by decide) first
    obtain ⟨sign', l₂', lt₂, second', -, values⟩ := values.take_word (by decide) second
    obtain ⟨l₃', lt₃, third', values⟩ := values.takeValue third
    obtain ⟨rest', others, values⟩ := ih values
    exact ⟨rest', .assigned first' second' third' (same ▸ others), values⟩
  | keyword first plain keyword second _ ih =>
    obtain ⟨word', l₁', lt₁, first', same, values₁⟩ := h.take_word (by decide) first
    obtain ⟨l₂', lt₂, second', values⟩ := values₁.takeValue second
    obtain ⟨rest', others, values⟩ := ih values
    exact ⟨rest', .keyword first' (values₁.unassigned plain) (same ▸ keyword) second' (same ▸ others), values⟩
  | number first plain other denotes _ ih =>
    obtain ⟨word', l₁', lt₁, first', same, values₁⟩ := h.take_word (by decide) first
    obtain ⟨rest', others, values⟩ := ih values₁
    exact ⟨rest', .number first' (values₁.unassigned plain) (same ▸ other) (same ▸ denotes) others, values⟩
  | model first plain other denotes _ ih =>
    obtain ⟨word', l₁', lt₁, first', same, values₁⟩ := h.take_word (by decide) first
    obtain ⟨rest', others, values⟩ := ih values₁
    exact ⟨rest', .model first' (values₁.unassigned plain) (same ▸ other) (same ▸ denotes) (same ▸ others), values⟩
  | value kind first _ ih =>
    obtain ⟨l₁', lt₁, first', values⟩ := h.takeValue first
    obtain ⟨rest', others, values⟩ := ih values
    refine ⟨rest', .value ?_ first' others, values⟩
    rcases h.next.kind with same | ⟨-, kind'⟩
    · rwa [same]
    · exact kind'

end SameValues

end Line

/-! ## Bare and in braces -/

/-- What a literal is, bare and in braces. -/
structure SameInBraces (text : String) (q : Quantity) : Prop where
  /-- The expression is a constant, -/
  expression : Expr.parse text = .ok (.num (q.value : Double))
  /-- and the number is that constant. -/
  number : readValue text = .ok (some (q.value : Double))
  /-- Without a scale letter it is the decimal itself. -/
  unscaled : q.scale = 0 → (q.value : Double) = .ofDecimal q.magnitude.digits q.magnitude.exponent
  /-- Without the white space around it the text is a token, in front of every text that does not go on with it. -/
  bare : ∃ c cs, Text.trim text.toList = c :: cs ∧ ∀ p rest, NoFurther [] rest →
    ∃ t, readToken p c (cs ++ rest) = .ok (t, rest) ∧ t.IsLiteral q
  /-- On one line it is a token in braces. -/
  braced : '\n' ∉ text.toList → ∀ p rest,
    ∃ t, readToken p '\x7b' (text.toList ++ '\x7d' :: rest) = .ok (t, rest) ∧ t.IsLiteral q
  /-- Which of these tokens a line holds does not matter to an element. -/
  settings : ∀ (e e' : Element Double) (l l' : Line), Line.SameValues q l l' →
    ((∃ rest, Line.takeSettings e l = .ok (e', rest)) ↔ ∃ rest, Line.takeSettings e l' = .ok (e', rest))

/-- A literal is the same double for both scans, so an element has the same values whether the literal stands bare or in
braces. -/
theorem same_in_braces {text : String} {q : Quantity} (literal : IsLiteral q text.toList) : SameInBraces text q where
  expression := parse_of_isLiteral literal
  number := readValue_of_isLiteral literal
  unscaled := Double.value_of_unscaled literal.unsigned
  bare := by
    obtain ⟨c, cs, trimmed, numeral⟩ := literal.trim
    exact ⟨c, cs, trimmed, fun p rest more => readToken_of_isNumeral numeral p more⟩
  braced := readToken_of_isLiteral literal
  settings e e' l l' values := by
    constructor
    · rintro ⟨rest, taken⟩
      obtain ⟨rest', form, -⟩ := values.sets (Line.takeSettings_eq_ok_iff.mp taken)
      exact ⟨rest', Line.takeSettings_eq_ok_iff.mpr form⟩
    · rintro ⟨rest, taken⟩
      obtain ⟨rest', form, -⟩ := values.symm.sets (Line.takeSettings_eq_ok_iff.mp taken)
      exact ⟨rest', Line.takeSettings_eq_ok_iff.mpr form⟩

/-- 4.7 kilohms, bare and in braces. -/
theorem kilohms_in_braces : ∃ (q : Quantity) (bare braced : Line), IsLiteral q " 4.7k ".toList ∧
    bare.tokens = [⟨.number, "4.7k", .start⟩] ∧ braced.tokens = [⟨.expression, " 4.7k ", .start⟩] ∧
    Line.SameValues q bare braced ∧ SameInBraces " 4.7k " q := by
  have digits {d : Char} (digit : isDigit d = true) : ∀ c ∈ [d], isDigit c = true := List.forall_mem_singleton.mpr digit
  have numeral {rest : List Char} (free : rest.head?.any Expr.isNameChar = false) :
      IsNumeral "4.7k".toList ⟨false, ⟨47, -1⟩, 3⟩ rest :=
    .intro (.pointed (digits (d := '4') rfl) (digits (d := '7') rfl)) .absent rfl (.letter rfl free)
  have literal : IsLiteral ⟨false, ⟨47, -1⟩, 3⟩ " 4.7k ".toList :=
    @IsLiteral.intro _ [' '] _ [' '] (List.forall_mem_singleton.mpr rfl) (numeral rfl)
      (List.forall_mem_singleton.mpr rfl)
  have literal' : IsLiteral ⟨false, ⟨47, -1⟩, 3⟩ "4.7k".toList := isLiteral_of_isNumeral (numeral rfl)
  have values : Line.SameValues ⟨false, ⟨47, -1⟩, 3⟩ ⟨1, [⟨.number, "4.7k", .start⟩], ⟨.eof, "", .start⟩, none⟩
      ⟨1, [⟨.expression, " 4.7k ", .start⟩], ⟨.eof, "", .start⟩, none⟩ :=
    ⟨.cons (.inr ⟨⟨.inl rfl, literal'⟩, .inr rfl, literal⟩) .nil, rfl, rfl⟩
  exact ⟨_, _, _, literal, rfl, rfl, values, same_in_braces literal⟩

end AnalogCircuit.Netlist
