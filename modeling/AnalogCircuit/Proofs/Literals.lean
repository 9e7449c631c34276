import AnalogCircuit.Proofs.Derivations
import AnalogCircuit.Proofs.Lookahead
import AnalogCircuit.Proofs.Unsigned
/-!
# Literals

Numbers are read by one scan in a netlist and by another one in an expression. What a numeral consists of is said
without a scan: where the mantissa ends, what makes an exponent and which letters scale. The scan of expressions finds
these parts, and so does the one of netlists. So a literal, which is a numeral with white space around it, is the same
number for both.
-/

namespace AnalogCircuit.Text

/-- White space around a text is removed. -/
theorem trim_of_blank {before text behind : List Char} (blank : ∀ c ∈ before, isBlank c = true)
    (graphic : ∀ c ∈ text, isBlank c = false) (blank' : ∀ c ∈ behind, isBlank c = true) :
    trim (before ++ (text ++ behind)) = text := by
  have kept {cs : List Char} (graphic : ∀ c ∈ cs, isBlank c = false) : cs.dropWhile isBlank = cs :=
    List.dropWhile_eq_self_iff.mpr fun h => by simp [graphic _ (List.getElem_mem h)]
  rw [trim, List.dropWhile_append_of_pos blank]
  cases text with
  | nil =>
    rw [List.nil_append, List.dropWhile_eq_nil_iff.mpr fun c hc => blank' c hc]
    rfl
  | cons c text =>
    rw [List.cons_append, List.dropWhile_cons_of_neg (by simp [graphic c List.mem_cons_self]), ← List.cons_append,
      List.reverse_append, List.dropWhile_append_of_pos fun c hc => blank' c (List.mem_reverse.mp hc),
      kept fun c hc => graphic c (List.mem_reverse.mp hc), List.reverse_reverse]

end AnalogCircuit.Text

namespace AnalogCircuit.Netlist

open Numeral
open AnalogCircuit.Expr (IsMantissa IsExponent IsScale IsNumeral)

/-! ## Numerals in a netlist -/

section

variable {text rest ms es ss whole fraction : List Char} {exponent : Option (Bool × List Char)} {c : Char} {n : Int}
  {q : Quantity}

/-- The characters of numerals. -/
def isNumeralChar (c : Char) : Bool := Expr.isNameChar c || c == '.' || c == '+' || c == '-'

theorem isBlank_of_isNumeralChar (h : isNumeralChar c = true) : Text.isBlank c = false := by
  simp only [isNumeralChar, Bool.or_eq_true, beq_iff_eq] at h
  rcases h with ((name | rfl) | rfl) | rfl
  · simp only [Expr.isNameChar, Char.isAlphanum, Char.isAlpha, Char.isUpper, Char.isLower, Char.isDigit, ge_iff_le,
      Bool.or_eq_true, Bool.and_eq_true, decide_eq_true_eq, beq_iff_eq, UInt32.le_iff_toNat_le, Char.reduceVal,
      UInt32.reduceToNat, ← Char.toNat_val, ← Char.toNat_inj] at name
    simp only [Text.isBlank, Bool.or_eq_false_iff, Bool.and_eq_false_iff, decide_eq_false_iff_not,
      beq_eq_false_iff_ne, ← Char.toNat_val]
    omega
  all_goals decide

theorem isNumeralChar_of_isNameChar (h : Expr.isNameChar c = true) : isNumeralChar c = true := by
  simp [isNumeralChar, h]

theorem isNumeralChar_of_isNumeral (h : IsNumeral text q rest) : ∀ c ∈ text, isNumeralChar c = true := by
  cases h with
  | @intro ms es ss whole fraction _ exponent magnitude n mantissa exponential denotes scale =>
  have digits {ds : List Char} (digits : ∀ d ∈ ds, isDigit d = true) : ∀ d ∈ ds, isNumeralChar d = true :=
    fun d hd => isNumeralChar_of_isNameChar (Expr.isNameChar_of_isDigit (digits d hd))
  have marked {m : Char} (mark : m = 'e' ∨ m = 'E') : isNumeralChar m = true := by
    rcases mark with rfl | rfl <;> rfl
  have first : ∀ c ∈ ms, isNumeralChar c = true := by
    cases mantissa with
    | integer whole => exact digits whole
    | pointed whole fraction =>
      exact List.forall_mem_append.mpr ⟨digits whole, List.forall_mem_cons.mpr ⟨rfl, digits fraction⟩⟩
  have second : ∀ c ∈ es, isNumeralChar c = true := by
    cases exponential with
    | absent => nofun
    | unsigned mark more => exact List.forall_mem_cons.mpr ⟨marked mark, digits more⟩
    | signed mark sign more =>
      refine List.forall_mem_cons.mpr ⟨marked mark, List.forall_mem_cons.mpr ⟨?_, digits more⟩⟩
      rcases sign with rfl | rfl <;> rfl
  have third : ∀ c ∈ ss, isNumeralChar c = true := by
    cases scale with
    | absent => nofun
    | letter scales =>
      exact List.forall_mem_singleton.mpr (isNumeralChar_of_isNameChar (Expr.isNameChar_of_scaleLetter? scales))
  exact List.forall_mem_append.mpr ⟨first, List.forall_mem_append.mpr ⟨second, third⟩⟩

theorem startsSigned_of_isDigit (digit : isDigit c = true) (cs : List Char) : startsSigned (c :: cs) = false := by
  have unsigned : (c == '+' || c == '-') = false := by
    rw [Bool.or_eq_false_iff, beq_eq_false_iff_ne, beq_eq_false_iff_ne]
    constructor <;> rintro rfl <;> cases digit
  cases cs with
  | nil => rfl
  | cons => rw [startsSigned, unsigned, Bool.false_and]

/-- A scale letter is one here too, and it is no mark of an exponent. -/
theorem spanScale_of_isScale (scale : IsScale ss n rest) :
    spanScale ss = (n, []) ∧ spanExponent ss = (none, ss) ∧ splitsCharacter 3 ss = false ∧
      Text.splitWhile isWordChar ss = (ss, []) := by
  cases scale with
  | absent => decide
  | letter scales =>
    unfold Expr.scaleLetter? at scales
    split at scales <;> first | cases scales; decide | cases scales

/-- The exponent of a numeral is read here too. -/
theorem spanExponent_of_isExponent {magnitude : Decimal} (exponential : IsExponent es exponent)
    (denotes : Literal.magnitude? ⟨false, whole, fraction, exponent⟩ = some magnitude) (scale : IsScale ss n rest) :
    spanExponent (es ++ ss) = (exponent, ss) := by
  have split {ds : List Char} (digits : ∀ d ∈ ds, isDigit d = true) : spanDigits (ds ++ ss) = (ds, ss) :=
    Expr.splitWhile_of_all digits scale.stop
  cases exponential with
  | absent => exact (spanScale_of_isScale scale).2.1
  | unsigned mark digits =>
    obtain ⟨d, ds, rfl⟩ := Expr.digits_of_magnitude? denotes
    obtain ⟨digit, -⟩ := List.forall_mem_cons.mp digits
    rw [List.cons_append, spanExponent_marked (Expr.mark_beq mark), split digits, List.cons_append,
      startsSigned_of_isDigit digit]
    simp [digit]
  | signed mark sign digits =>
    obtain ⟨d, ds, rfl⟩ := Expr.digits_of_magnitude? denotes
    obtain ⟨digit, -⟩ := List.forall_mem_cons.mp digits
    rw [List.cons_append, List.cons_append, spanExponent_marked (Expr.mark_beq mark), List.tail_cons, split digits]
    simp [startsSigned, (Expr.isDigit_of_sign sign).2, digit]

/-- The parts of a numeral are found here too. -/
theorem spanSigned_of_isNumeral (h : IsNumeral text q rest) : ∃ literal ss, spanSigned text = (literal, ss) ∧
    literal.negative = q.negative ∧ literal.magnitude? = some q.magnitude ∧ IsScale ss q.scale rest := by
  obtain ⟨c, cs, start, digit⟩ := Expr.startsNumber_of_spanQuantity (Expr.spanQuantity_of_isNumeral h)
  have unsigned : spanSigned text = spanLiteral spanExponent text := by
    unfold spanSigned
    split
    · cases start
      cases digit
    · cases start
      cases digit
    · rfl
  cases h with
  | @intro ms es ss whole fraction _ exponent magnitude n mantissa exponential denotes scale =>
  obtain ⟨first, second⟩ := mantissa.span (Expr.stop_of_isExponent exponential scale)
  refine ⟨_, ss, ?_, rfl, denotes, scale⟩
  rw [unsigned, Expr.spanLiteral_eq, first]
  dsimp only
  rw [second]
  dsimp only
  rw [spanExponent_of_isExponent exponential denotes scale]

/-- What is left of a text without the white space around it may be a numeral; then it is read in a netlist. -/
theorem readQuantity_of_isNumeral {cs : List Char} (trimmed : Text.trim cs = text) (h : IsNumeral text q rest) :
    readQuantity cs = .ok (some q) := by
  obtain ⟨c, _, rfl, digit⟩ := Expr.startsNumber_of_spanQuantity (Expr.spanQuantity_of_isNumeral h)
  have starts : startsValue c = true := by
    simp only [Expr.startsNumber, Bool.or_eq_true] at digit
    simp only [startsValue, Bool.or_eq_true]
    exact .inl (.inl digit)
  obtain ⟨literal, ss, found, unsigned, denotes, scale⟩ := spanSigned_of_isNumeral h
  obtain ⟨scaled, -, whole, -⟩ := spanScale_of_isScale scale
  rw [readQuantity, trimmed]
  dsimp only
  rw [if_pos starts, found]
  dsimp only
  rw [denotes]
  dsimp only
  rw [whole, scaled, unsigned]
  rfl

/-! ## Literals -/

/-- The text is one numeral, with white space in front of it and behind it. -/
inductive IsLiteral (q : Quantity) : List Char → Prop
  | intro {before text behind : List Char} (blank : ∀ c ∈ before, Text.isAsciiBlank c = true)
      (numeral : IsNumeral text q behind) (blank' : ∀ c ∈ behind, Text.isAsciiBlank c = true) :
      IsLiteral q (before ++ (text ++ behind))

/-- A numeral alone is a literal. -/
theorem isLiteral_of_isNumeral (h : IsNumeral text q []) : IsLiteral q text := by
  have literal := @IsLiteral.intro q [] text [] nofun h nofun
  rwa [List.nil_append, List.append_nil] at literal

theorem IsLiteral.unsigned (literal : IsLiteral q text) : q.negative = false := by
  cases literal with
  | intro blank numeral blank' =>
  cases numeral
  rfl

/-- Without the white space the numeral is left. -/
theorem IsLiteral.trim (literal : IsLiteral q text) : ∃ c cs, Text.trim text = c :: cs ∧ IsNumeral (c :: cs) q [] := by
  cases literal with
  | intro blank numeral blank' =>
  obtain ⟨c, cs, rfl, -⟩ := Expr.startsNumber_of_spanQuantity (Expr.spanQuantity_of_isNumeral numeral)
  refine ⟨c, cs, Text.trim_of_blank ?_ ?_ ?_, numeral.alone⟩
  · exact fun c hc => Text.isBlank_of_isAsciiBlank (blank c hc)
  · exact fun c hc => isBlank_of_isNumeralChar (isNumeralChar_of_isNumeral numeral c hc)
  · exact fun c hc => Text.isBlank_of_isAsciiBlank (blank' c hc)

theorem IsLiteral.readQuantity (literal : IsLiteral q text) : readQuantity text = .ok (some q) := by
  obtain ⟨c, cs, trimmed, numeral⟩ := literal.trim
  exact readQuantity_of_isNumeral trimmed numeral

theorem skipBlank_of_blank (blank : ∀ c ∈ text, Text.isAsciiBlank c = true) : Expr.skipBlank text = [] :=
  List.dropWhile_eq_nil_iff.mpr blank

/-- Literals are the texts that consist of one lexeme, a number. -/
theorem isLiteral_iff_isLexed {text : String} : IsLiteral q text.toList ↔ Expr.IsLexed text [.number q] := by
  constructor
  · generalize whole : text.toList = cs
    rintro ⟨blank, numeral, blank'⟩
    next before text' behind =>
    have read := Expr.spanQuantity_of_isNumeral numeral
    obtain ⟨c, cs, rfl, digit⟩ := Expr.startsNumber_of_spanQuantity read
    have closed : Expr.Closed 0 behind := by
      intro c hc
      rw [skipBlank_of_blank blank'] at hc
      cases hc
    have start : Expr.skipBlank text.toList = c :: (cs ++ behind) := by
      rw [whole, Expr.skipBlank, List.dropWhile_append_of_pos blank]
      exact Expr.skipBlank_of_start (Expr.isNameChar_of_startsNumber digit)
    obtain ⟨_, first⟩ := Expr.next_number start digit (Expr.spanQuantity_append closed.apart read)
    exact ⟨behind, .single first, skipBlank_of_blank blank'⟩
  · rintro ⟨rest, lexes, finished⟩
    cases lexes with
    | cons first others =>
    cases others
    obtain ⟨start, lexeme, -⟩ := first
    cases lexeme with
    | number numeral =>
    rw [← List.takeWhile_append_dropWhile (p := Text.isAsciiBlank) (l := text.toList),
      show text.toList.dropWhile Text.isAsciiBlank = _ from start]
    exact .intro (fun _ => List.mem_takeWhile_imp) numeral (List.dropWhile_eq_nil_iff.mp finished)

/-- A literal is read as a number. -/
theorem readValue_of_isLiteral {α : Type} [Scalar α] {text : String} (literal : IsLiteral q text.toList) :
    readValue (α := α) text = .ok (some q.value) := by
  rw [readValue, literal.readQuantity]
  rfl

/-- A literal is read as an expression, too. -/
theorem parse_eq_of_isLiteral {α : Type} [Scalar α] {text : String} (literal : IsLiteral q text.toList) :
    Expr.parse (α := α) text = .ok (.mkSum [.mkNum q.value]) := by
  obtain ⟨rest, lexes, finished⟩ := isLiteral_iff_isLexed.mp literal
  have derived : Expr.IsExpression (α := α) [.number q] (.mkSum [.mkNum q.value]) :=
    .plain (@Expr.IsAdditive.sum _ _ [.number q] [] _ _ (.unary (.power (.plain .number))) .nil)
  refine Expr.Grammar.parse_of_outcome (derived.read lexes ?_) finished
  intro c hc
  rw [finished] at hc
  cases hc

end

/-! ## Doubles -/

section

variable {v : Double} {q : Quantity} {text : String}

/-- A double without a minus sign is the constant that it denotes. -/
theorem mkNum_of_unsigned (h : Binary64.Unsigned v.value) : Expr.mkNum v = .num v := by
  unfold Expr.mkNum
  split
  · next zero => rw [Double.eq_zero_of_unsigned h zero]
  · rfl

/-- So is the sum of it alone. -/
theorem mkSum_of_unsigned (h : Binary64.Unsigned v.value) : Expr.mkSum [Expr.mkNum v] = .num v := by
  rw [mkNum_of_unsigned h]
  unfold Expr.mkSum
  simp only [Expr.termsList, Expr.terms, List.append_nil, List.filterMap_cons, Expr.constant?, List.filterMap_nil,
    List.foldl_cons, List.foldl_nil, Double.zero_add_of_unsigned h, Expr.collectTerms, List.filter_nil, List.map_nil,
    List.nil_append]
  by_cases zero : Scalar.isZero v = true
  · rw [if_pos zero, Double.eq_zero_of_unsigned h zero]
    rfl
  · rw [if_neg zero, mkNum_of_unsigned h]
    rfl

/-- A literal is the constant that it is read as. -/
theorem parse_of_isLiteral (literal : IsLiteral q text.toList) : Expr.parse text = .ok (.num (q.value : Double)) := by
  rw [parse_eq_of_isLiteral literal, mkSum_of_unsigned (Double.unsigned_value literal.unsigned)]

end

end AnalogCircuit.Netlist
