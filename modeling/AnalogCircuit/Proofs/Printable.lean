import AnalogCircuit.Expr.Parse
import AnalogCircuit.Expr.Text
import AnalogCircuit.Proofs.Scanning
import AnalogCircuit.Proofs.Signs
/-!
# Expressions whose text can be read

A canonical expression whose constants are plain and read back, and whose names are found again where they stand. What
a negative term subtracts is such an expression as well.
-/

namespace AnalogCircuit

open Expr

/-! ## Symbols -/

/-- Symbols that are found again by their text. -/
inductive Symbol.IsLegible (s : Symbol) : Prop
  | current (sample : s.sample = .current) (identifier : IsIdentifier s.name.toList) (notPi : s.name ≠ "pi")
      (notE : s.name ≠ "e")
  /-- A name and a text in brackets, which is not the mark of the previous sample. -/
  | bracketed {name inside : List Char} (sample : s.sample = .current)
      (whole : s.name.toList = name ++ '[' :: inside ++ [']']) (identifier : IsIdentifier name)
      (unclosed : ']' ∉ inside) (unmarked : Text.trim inside ≠ "t0".toList)
  | previous (sample : s.sample = .previous) (identifier : IsIdentifier s.name.toList) (notPi : s.name ≠ "pi")
      (notE : s.name ≠ "e") (notTime : s.name ≠ "t")

namespace Expr

variable {α : Type} [Scalar α]

/-- The text of a symbol starts with a letter, and is found to be the name of the symbol. -/
theorem spanWord_symbol {s : Symbol} (h : s.IsLegible) {rest : List Char} (apart : Apart rest) :
    (∃ c cs, s.text.toList = c :: cs ∧ startsName c = true) ∧
      ∃ w, spanWord (s.text.toList ++ rest) = some w ∧ w.rest = rest ∧ (Grammar.ofWord w : Expr α) = sym s := by
  have start {name : List Char} (identifier : IsIdentifier name) (others : List Char) :
      ∃ c cs, name ++ others = c :: cs ∧ startsName c = true := by
    cases name with
    | nil => cases identifier
    | cons c cs => exact ⟨c, cs ++ others, rfl, identifier.1⟩
  obtain ⟨name, sample⟩ := s
  cases h with
  | current current identifier notPi notE =>
    obtain rfl : sample = .current := current
    dsimp only at identifier notPi notE
    refine ⟨by simpa [Symbol.text] using start identifier [], ⟨name.toList, false, rest⟩, ?_, rfl, ?_⟩
    · exact spanWord_name identifier apart
    · simp [Grammar.ofWord, notPi, notE, named, Symbol.named]
  | @bracketed word inside current whole identifier unclosed unmarked =>
    obtain rfl : sample = .current := current
    -- The bracket tells the name from those of the constants.
    have bracket : '[' ∈ name.toList := by simp [whole]
    have notPi : name ≠ "pi" := by rintro rfl; revert bracket; decide
    have notE : name ≠ "e" := by rintro rfl; revert bracket; decide
    have found := spanWord_bracket identifier unclosed rest
    rw [if_neg unmarked, ← whole] at found
    dsimp only at whole found
    refine ⟨by simpa [Symbol.text, whole] using start identifier _, ⟨name.toList, false, rest⟩, ?_, rfl, ?_⟩
    · simpa [Symbol.text, whole] using found
    · simp [Grammar.ofWord, notPi, notE, named, Symbol.named]
  | previous previous identifier notPi notE notTime =>
    obtain rfl : sample = .previous := previous
    have found := spanWord_bracket identifier (show ']' ∉ "t0".toList by decide) rest
    rw [if_pos (by decide)] at found
    dsimp only at notPi notE notTime found
    have text : (Symbol.text ⟨name, .previous⟩).toList = name.toList ++ "[t0]".toList := by
      simp [Symbol.text, Symbol.time, Symbol.named, notTime]
    rw [text]
    refine ⟨start identifier _, ⟨name.toList, true, rest⟩, ?_, rfl, ?_⟩
    · simpa using found
    · simp [Grammar.ofWord, notPi, notE, Symbol.named, Symbol.previous]

/-! ## Legible and printable expressions -/

/-- A number whose text is read as the number. -/
def ReadsBack (v : α) : Prop :=
  ∃ q : Numeral.Quantity, spanQuantity (Scalar.text v) = some (q, []) ∧ q.value = v

/-- The constants are plain, the names are found again, and calls have the arguments that they take. -/
def LegibleNode : Expr α → Prop
  | num v => Scalar.IsPlain v
  | sym s => s.IsLegible
  | call f args => f.arity = args.length
  | apply name _ => IsIdentifier name.toList ∧ name ≠ "if" ∧ name ≠ "D" ∧ Builtin.find? name = none
  | derivative _ t => t.IsLegible
  | integral _ _ => False
  | _ => True

/-- All nodes can be told by their text. -/
def IsLegible (e : Expr α) : Prop := Everywhere LegibleNode e

/-- A node of an expression whose text can be read. -/
structure PrintableNode (e : Expr α) : Prop where
  tidy : TidyNode e
  merged : MergedNode e
  legible : LegibleNode e
  reads : ∀ v, e = num v → ReadsBack (Scalar.abs v)

/-- A canonical expression whose text can be read. -/
def IsPrintable (e : Expr α) : Prop := Everywhere PrintableNode e

variable {e t s : Expr α} {v : α}

theorem isPrintable_iff : IsPrintable e ↔ PrintableNode e ∧ ∀ x ∈ e.children, IsPrintable x := everywhere_iff

theorem IsPrintable.child (h : IsPrintable e) {x : Expr α} (hx : x ∈ e.children) : IsPrintable x :=
  (isPrintable_iff.mp h).2 x hx

theorem IsPrintable.node (h : IsPrintable e) : PrintableNode e := (isPrintable_iff.mp h).1

theorem isPrintable_sym {name : Symbol} (legible : name.IsLegible) : IsPrintable (sym name : Expr α) :=
  isPrintable_iff.mpr ⟨⟨rfl, trivial, legible, nofun⟩, by simp [children]⟩

theorem IsPrintable.isTidy (h : IsPrintable e) : IsTidy e := fun n hn => (h n hn).tidy

theorem IsPrintable.isMerged (h : IsPrintable e) : IsMerged e := fun n hn => (h n hn).merged

theorem IsPrintable.isPlain (h : IsPrintable e) : IsPlain e := fun v hv => (h (num v) hv).legible

variable [Signed α] [Std.TransCmp (Scalar.order (α := α))] [Std.LawfulEqCmp (Scalar.order (α := α))]

theorem IsPrintable.isCanonical (h : IsPrintable e) : IsCanonical e :=
  h.isTidy.isCanonical h.isPlain.isNeutral h.isMerged

omit [Signed α] in
theorem IsCanonical.isPrintable (h : IsCanonical e) (legible : IsLegible e)
    (reads : ∀ v, num v ∈ e.nodes → ReadsBack (Scalar.abs v)) : IsPrintable e := by
  intro n hn
  refine ⟨h.isTidy n hn, h.isMerged n hn, legible n hn, ?_⟩
  rintro v rfl
  exact reads v hn

/-- An expression is the sum of itself alone. -/
theorem IsPrintable.mkSum_singleton (h : IsPrintable e) : mkSum [e] = e := by
  cases zero : e.isZero with
  | false =>
    refine Expr.mkSum_singleton h.isTidy h.isPlain.isNeutral zero ?_
    rintro ts rfl
    exact h.node.merged
  | true =>
    cases e with
    | num v =>
      obtain rfl := h.isPlain.num.unsigned zero
      have sum : (0 : α) + 0 = 0 := (h.isPlain.isNeutral).num.zero_add
      rw [mkSum_eq]
      simp [summands, termsList, terms, collectTerms, constant?, sum, Unital.isZero_zero]
      rfl
    | _ => cases zero

/-! ## Subtraction -/

omit [Std.TransCmp (Scalar.order (α := α))] [Std.LawfulEqCmp (Scalar.order (α := α))] in
theorem IsPrintable.num_neg (h : IsPrintable (num v)) (negative : Scalar.lt v 0 = true) : IsPrintable (num (-v)) := by
  have sign := Signed.isNegated h.isPlain.num negative
  refine isPrintable_iff.mpr ⟨⟨rfl, trivial, sign.isPlain_neg, ?_⟩, by simp [children]⟩
  rintro _ ⟨⟩
  rw [Signed.abs_of_nonnegative sign.isPlain_neg sign.nonnegative, ← sign.abs]
  exact h.node.reads v rfl

omit [Std.TransCmp (Scalar.order (α := α))] [Std.LawfulEqCmp (Scalar.order (α := α))] in
theorem scale_one (plain : Scalar.IsPlain v) : scale v one = num v := by
  unfold scale
  split
  · next unit => rw [Signed.eq_of_isOne unit]; rfl
  · show mkNum (v * 1) = num v
    rw [Signed.mul_one plain, mkNum_of_plain plain]

omit [Signed α] [Std.TransCmp (Scalar.order (α := α))] [Std.LawfulEqCmp (Scalar.order (α := α))] in
/-- The coefficient of a product can be dropped or replaced. -/
theorem IsPrintable.rescale {c : α} {fs : List (Expr α)} (h : IsPrintable (product (num c :: fs)))
    (coefficient : IsPrintable (num v)) (nonzero : Scalar.isZero v = false) :
    IsPrintable (scale v (ofFactors fs)) := by
  have parts : ∀ f ∈ fs, IsPrintable f := fun f hf => h.child (List.mem_cons_of_mem _ hf)
  have distinct : (bases fs).Nodup := h.node.merged
  cases isTidy_product.mp h.isTidy |>.1 with
  | plain _ factor _ => cases (factor (num c) List.mem_cons_self).nonconstant
  | scaled sorted factor some _ _ =>
    by_cases proper : Scalar.isOne v
    · have bare : scale v (ofFactors fs) = ofFactors fs := by unfold scale; exact if_pos proper
      rw [bare]
      unfold ofFactors
      split
      · next f => exact parts f List.mem_cons_self
      · next lone =>
        have several := two_le_length some lone
        exact isPrintable_iff.mpr ⟨⟨.plain sorted factor several, distinct, trivial, nofun⟩, parts⟩
    · have proper := Bool.eq_false_iff.mpr proper
      rw [scale_ofFactors factor some nonzero proper]
      refine isPrintable_iff.mpr ⟨⟨.scaled sorted factor some nonzero proper, distinct, trivial, nofun⟩, ?_⟩
      exact List.forall_mem_cons.mpr ⟨coefficient, parts⟩

/-- What a negative term subtracts can be read, and the term is its negation. -/
theorem IsPrintable.subtrahend (h : IsPrintable t) (negative : t.subtrahend? = some s) :
    IsPrintable s ∧ -s = t := by
  obtain ⟨c, sign, ⟨rfl, rfl⟩ | ⟨fs, rfl, rfl⟩⟩ := exists_of_subtrahend? negative
  · have negated := Signed.isNegated h.isPlain.num sign
    rw [scale_one negated.isPlain_neg]
    exact ⟨h.num_neg sign, neg_num negated⟩
  · have coefficient : IsPrintable (num c) := h.child List.mem_cons_self
    have negated := Signed.isNegated coefficient.isPlain.num sign
    have factors := (isTidy_product.mp h.isTidy).1
    refine ⟨h.rescale (coefficient.num_neg sign) negated.isZero_neg, ?_⟩
    rw [neg_scale coefficient.isPlain.num negated factors]
    exact mkProduct_of_tidy factors (fun f hf => h.isTidy.child hf)
      (fun f hf => (h.isPlain.child hf).isNeutral) h.isMerged

end Expr

end AnalogCircuit
