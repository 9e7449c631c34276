import Mathlib.Data.List.TakeWhile
import AnalogCircuit.Expr.Scan
/-!
# Numbers and names in front of other text

A number or a name at the start of a text is found there whatever follows it, as long as that could not go on with it.
-/

namespace AnalogCircuit.Expr

open Numeral

/-- The text does not start with a character that could go on with a number or a name. -/
def Apart (rest : List Char) : Prop := ∀ c, rest.head? = some c → isNameChar c = false ∧ c ≠ '.' ∧ c ≠ '['

variable {cs rest name : List Char} {c : Char}

/-- What is split off does not reach into a text that starts otherwise. -/
theorem splitWhile_append_of_stop {p : Char → Bool} (stop : ∀ c, rest.head? = some c → p c = false) :
    Text.splitWhile p (cs ++ rest) = ((Text.splitWhile p cs).1, (Text.splitWhile p cs).2 ++ rest) := by
  induction cs with
  | nil =>
    cases rest with
    | nil => rfl
    | cons c rest => simp [Text.splitWhile, stop c rfl]
  | cons c cs ih =>
    simp only [Text.splitWhile, Prod.mk.injEq] at ih
    cases h : p c with
    | false => simp [Text.splitWhile, h]
    | true => simp [Text.splitWhile, h, ih]

theorem splitWhile_of_all {p : Char → Bool} (all : ∀ c ∈ cs, p c = true)
    (stop : ∀ c, rest.head? = some c → p c = false) : Text.splitWhile p (cs ++ rest) = (cs, rest) := by
  rw [splitWhile_append_of_stop stop]
  simp [Text.splitWhile, List.takeWhile_eq_self_iff.mpr all, List.dropWhile_eq_nil_iff.mpr all]

/-! ## Numbers -/

theorem isNameChar_of_isDigit (h : isDigit c = true) : isNameChar c = true := by
  simp only [isDigit, Bool.and_eq_true, decide_eq_true_eq, Char.le_def] at h
  simp only [isNameChar, Char.isAlphanum, Char.isDigit, Bool.or_eq_true, Bool.and_eq_true, decide_eq_true_eq]
  exact .inl (.inr h)

theorem isNameChar_of_scaleLetter? {n : Int} (h : scaleLetter? c = some n) : isNameChar c = true := by
  unfold scaleLetter? at h
  split at h <;> first | rfl | cases h

theorem scaleLetter?_of_apart (h : isNameChar c = false) : scaleLetter? c = none := by
  cases scale : scaleLetter? c with
  | none => rfl
  | some n => rw [isNameChar_of_scaleLetter? scale] at h; cases h

theorem spanDigits_append (apart : Apart rest) :
    spanDigits (cs ++ rest) = ((spanDigits cs).1, (spanDigits cs).2 ++ rest) := by
  refine splitWhile_append_of_stop fun c hc => ?_
  cases digit : isDigit c with
  | false => rfl
  | true => exact absurd (isNameChar_of_isDigit digit) (by simp [(apart c hc).1])

/-- The digits behind a point. -/
def spanFraction : List Char → List Char × List Char
  | '.' :: cs => spanDigits cs
  | cs => ([], cs)

theorem spanLiteral_eq (rule : ExponentRule) (cs : List Char) :
    spanLiteral rule cs =
      let (fraction, tail) := spanFraction (spanDigits cs).2
      (⟨false, (spanDigits cs).1, fraction, (rule tail).1⟩, (rule tail).2) := by
  unfold spanLiteral
  rfl

theorem spanFraction_of_pointless (h : c ≠ '.') : spanFraction (c :: cs) = ([], c :: cs) := by
  unfold spanFraction
  split
  · next point => exact absurd (List.cons.inj point).1 h
  · rfl

theorem spanFraction_append (apart : Apart rest) :
    spanFraction (cs ++ rest) = ((spanFraction cs).1, (spanFraction cs).2 ++ rest) := by
  rcases cs with _ | ⟨c, cs⟩
  · rcases rest with _ | ⟨c, rest⟩
    · rfl
    · exact spanFraction_of_pointless (apart c rfl).2.1
  · by_cases point : c = '.'
    · subst point
      exact spanDigits_append apart
    · rw [spanFraction_of_pointless point, List.cons_append, spanFraction_of_pointless point]

/-- Without a mark there is no exponent. -/
theorem spanExponent_of_unmarked (h : ∀ c, cs.head? = some c → c ≠ 'e' ∧ c ≠ 'E') :
    spanExponent cs = (none, cs) := by
  rcases cs with _ | ⟨m, _ | ⟨c, cs⟩⟩
  · rfl
  · rfl
  · simp [spanExponent, h m rfl]

theorem spanExponent_append (apart : Apart rest) (whole : (spanScale (spanExponent cs).2).2 = []) :
    spanExponent (cs ++ rest) = ((spanExponent cs).1, (spanExponent cs).2 ++ rest) := by
  rcases cs with _ | ⟨m, _ | ⟨c, cs⟩⟩
  · refine spanExponent_of_unmarked fun c hc => ?_
    obtain ⟨other, -⟩ := apart c hc
    constructor <;> (rintro rfl; cases other)
  · -- The lone character is a scale letter, or it would be left over.
    refine spanExponent_of_unmarked fun c hc => ?_
    obtain rfl : m = c := Option.some.inj hc
    constructor <;> (rintro rfl; cases whole)
  · simp only [spanExponent, List.cons_append] at whole ⊢
    by_cases digits : ((m == 'e' || m == 'E') && isDigit c) = true
    · rw [if_pos digits, if_pos digits, ← List.cons_append, spanDigits_append apart]
    by_cases signed : ((m == 'e' || m == 'E') && (c == '+' || c == '-')) = true
    · rw [if_neg digits, if_neg digits, if_pos signed, if_pos signed, spanDigits_append apart]
    · rw [if_neg digits, if_neg digits, if_neg signed, if_neg signed]
      rfl

theorem spanScale_append (apart : Apart rest) (whole : (spanScale cs).2 = []) :
    spanScale (cs ++ rest) = ((spanScale cs).1, rest) := by
  have free : rest.head?.any isNameChar = false := by
    cases head : rest.head? with
    | none => rfl
    | some c => exact (apart c head).1
  rcases cs with _ | ⟨c, cs⟩
  · rcases rest with _ | ⟨c, rest⟩
    · rfl
    · simp [spanScale, scaleLetter?_of_apart (apart c rfl).1]
  · unfold spanScale at whole ⊢
    simp only [List.cons_append]
    cases scale : scaleLetter? c with
    | none => simp [scale] at whole
    | some n =>
      cases inside : cs.head?.any isNameChar with
      | true => simp [scale, inside] at whole
      | false =>
        obtain rfl : cs = [] := by simpa [scale, inside] using whole
        simp [free]

/-- A number that takes a whole text is found at the start of a longer one. -/
theorem spanQuantity_append {q : Quantity} (apart : Apart rest) (h : spanQuantity cs = some (q, [])) :
    spanQuantity (cs ++ rest) = some (q, rest) := by
  unfold spanQuantity at h ⊢
  -- Part by part; of the exponent and the scale it matters that nothing was left of the shorter text.
  simp only [spanLiteral_eq, spanDigits_append apart, spanFraction_append apart] at h ⊢
  obtain ⟨d, magnitude, found⟩ := Option.map_eq_some_iff.mp h
  obtain ⟨rfl, whole⟩ := Prod.mk.inj found
  simp only [spanExponent_append apart whole, magnitude, Option.map_some, spanScale_append apart whole]

/-- A number starts with a digit or a point. -/
theorem startsNumber_of_spanQuantity {q : Quantity} (h : spanQuantity cs = some (q, [])) :
    ∃ c cs', cs = c :: cs' ∧ startsNumber c = true := by
  rcases cs with _ | ⟨c, cs⟩
  · cases h
  refine ⟨c, cs, rfl, ?_⟩
  cases start : startsNumber c with
  | true => rfl
  | false =>
    simp only [startsNumber, Bool.or_eq_false_iff, beq_eq_false_iff_ne] at start
    have digits : spanDigits (c :: cs) = ([], c :: cs) := by simp [spanDigits, Text.splitWhile, start.1]
    simp [spanQuantity, spanLiteral_eq, digits, spanFraction_of_pointless start.2, Literal.magnitude?] at h

/-! ## Names -/

/-- A letter or an underscore, then more of these and digits. -/
def IsIdentifier : List Char → Prop
  | [] => False
  | c :: cs => startsName c = true ∧ ∀ d ∈ cs, isNameChar d = true

-- The search for an instance may also find the one that tries every character.
instance : DecidablePred IsIdentifier
  | [] => .isFalse id
  | _ :: cs => @instDecidableAnd _ _ _ (List.decidableBAll _ cs)

theorem isNameChar_of_startsName (h : startsName c = true) : isNameChar c = true := by
  simp only [startsName, isNameChar, Char.isAlphanum, Bool.or_eq_true] at h ⊢
  exact h.imp_left .inl

theorem IsIdentifier.forall_isNameChar (h : IsIdentifier name) : ∀ c ∈ name, isNameChar c = true := by
  cases name with
  | nil => cases h
  | cons c cs => exact List.forall_mem_cons.mpr ⟨isNameChar_of_startsName h.1, h.2⟩

theorem spanWord_name (h : IsIdentifier name) (apart : Apart rest) :
    spanWord (name ++ rest) = some ⟨name, false, rest⟩ := by
  unfold spanWord
  rw [splitWhile_of_all h.forall_isNameChar fun c hc => (apart c hc).1]
  dsimp only
  split
  · exact absurd rfl (apart '[' rfl).2.2
  · rfl

/-- The bracket that follows a name is closed by the first closing bracket. -/
theorem spanWord_bracket {inside : List Char} (h : IsIdentifier name) (unclosed : ']' ∉ inside) (rest : List Char) :
    spanWord (name ++ '[' :: (inside ++ ']' :: rest)) =
      some (if Text.trim inside = "t0".toList then ⟨name, true, rest⟩
        else ⟨name ++ '[' :: inside ++ [']'], false, rest⟩) := by
  have all : ∀ c ∈ inside, (c != ']') = true := by
    intro c hc
    rw [bne_iff_ne]
    rintro rfl
    exact unclosed hc
  have bracket : Text.splitWhile (· != ']') (inside ++ ']' :: rest) = (inside, ']' :: rest) :=
    splitWhile_of_all all (by simp)
  unfold spanWord
  rw [splitWhile_of_all h.forall_isNameChar (by simp [isNameChar])]
  simp only [bracket]
  split <;> rfl

end AnalogCircuit.Expr
