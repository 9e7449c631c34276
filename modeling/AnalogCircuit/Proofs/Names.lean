import AnalogCircuit.Proofs.Taking
import AnalogCircuit.Proofs.Tokens
/-!
# Names in the tokens of a netlist

A name consists of letters, digits and underscores. A name that starts with a digit, which is a number that denotes no
value, may have points and signs in it, but no bracket. So the names of unknowns, which have brackets, are different
from all names in a netlist.
-/

namespace AnalogCircuit.Netlist

open Numeral

/-! ## Tokens -/

/-- A name has no bracket, and it has no point unless it starts with a digit. -/
structure IsName (text : String) : Prop where
  bracket : '[' ∉ text.toList
  point : text.toList.head?.any isDigit = false → '.' ∉ text.toList

theorem isName_word {c : Char} {cs word rest : List Char} (letter : (Text.isAlphabetic c || c == '_') = true)
    (spanned : Text.splitWhile isWordChar cs = (word, rest)) : IsName (String.ofList (c :: word)) := by
  have whole : ∀ d ∈ c :: word, isWordChar d = true := by
    refine List.forall_mem_cons.mpr ⟨?_, isWordChar_of_splitWhile spanned⟩
    rcases Bool.or_eq_true_iff.mp letter with letter | letter
    · simp [isWordChar, Text.isAlphanumeric_of_isAlphabetic letter]
    · simp [isWordChar, letter]
  have other {d : Char} (hd : isWordChar d = false) : d ∉ (String.ofList (c :: word)).toList := by
    rw [String.toList_ofList]
    intro mem
    rw [whole d mem] at hd
    cases hd
  exact ⟨other (by decide), fun _ => other (by decide)⟩

theorem isName_digits {c : Char} {cs text rest : List Char} (spanned : spanNumber (c :: cs) = (text, rest))
    (digit : isDigit c = true) : IsName (String.ofList text) := by
  constructor
  · rw [String.toList_ofList]
    intro mem
    exact absurd (isNumberChar_of_spanNumber spanned '[' mem) (by decide)
  · -- the number starts with the character at which it is read
    have first : text.head? = some c := by
      obtain rfl : (spanNumber (c :: cs)).1 = text := congrArg Prod.fst spanned
      show ((c :: cs).take ((c :: cs).length - (spanNumber (c :: cs)).2.length)).head? = some c
      rw [List.length_cons, Nat.succ_sub (length_spanNumber_le (by simp [startsValue, digit]))]
      rfl
    rw [String.toList_ofList, first, Option.any_some, digit]
    nofun

theorem isName_readToken {p : Position} {c : Char} {cs : List Char} {t : Token} {rest : List Char}
    (read : readToken p c cs = .ok (t, rest)) (name : t.kind = .identifier) : IsName t.text := by
  cases readToken_eq_ok_iff.mp read with
  | mark start => exact absurd name (Start.mark_of start).1
  | braces | number => cases name
  | digits start spanned denotes digit => exact isName_digits spanned digit
  | word start spanned =>
    rcases Start.word_of start with rfl | ⟨rfl, letter⟩
    · cases name
    · exact isName_word letter spanned

theorem isName_tokensFrom (p : Position) (cs : List Char) :
    ∀ t ∈ (tokensFrom p cs).1, t.kind = .identifier → IsName t.text := by
  fun_induction tokensFrom p cs with
  | case1 =>
    intro t mem name
    cases List.mem_singleton.mp mem
    cases name
  | case2 => nofun
  | case3 p cs _ _ c rest _ t rest' _ scanned ts fault found ih =>
    rw [found] at ih
    exact List.forall_mem_cons.mpr ⟨isName_readToken (readToken_of_scanToken scanned), ih⟩

/-! ## Lines -/

namespace Line

/-- The tokens of lines are tokens of the text. -/
theorem mem_ofTokens {fault : Option Error} {ts : List Token} :
    ∀ l ∈ ofTokens fault ts, ∀ t ∈ l.tokens, t ∈ ts := by
  fun_induction ofTokens fault ts with
  | case1 => simp
  | case2 t ts newline ih =>
    refine List.forall_mem_cons.mpr ⟨nofun, fun l hl t' ht' => ?_⟩
    exact List.mem_cons_of_mem _ (ih l hl t' ht')
  | case3 => simp
  | case4 t ts l ls found _ _ ih =>
    rw [found, List.forall_mem_cons] at ih
    refine List.forall_mem_cons.mpr ⟨?_, fun l' hl' t' ht' => List.mem_cons_of_mem _ (ih.2 l' hl' t' ht')⟩
    exact List.forall_mem_cons.mpr ⟨List.mem_cons_self, fun t' ht' => List.mem_cons_of_mem _ (ih.1 t' ht')⟩
  | case5 => simp

/-- All identifiers of the line are names. -/
def IsNamed (l : Line) : Prop := ∀ t ∈ l.tokens, t.kind = .identifier → IsName t.text

theorem IsNamed.take {l rest : Line} {kind : TokenKind} {t : Token}
    {h : rest.tokens.length < l.tokens.length} (named : l.IsNamed)
    (taken : l.take kind = .ok ⟨(t, rest), h⟩) : rest.IsNamed ∧ (kind = .identifier → IsName t.text) := by
  obtain ⟨same, tokens, -⟩ := take_eq_ok taken
  unfold IsNamed at named
  rw [tokens, List.forall_mem_cons] at named
  exact ⟨named.2, fun name => named.1 (same.trans name)⟩

theorem stable_isNamed : Stable IsNamed := fun _ _ _ _ _ named taken => (named.take taken).1

/-! ## Elements -/

/-- A kind that a keyword names is neither that of inductors nor that of sources of voltage. -/
theorem kind_of_keyword {word : String} {kind : ElementKind} (h : ElementKind.ofKeyword? word = some kind) :
    kind ≠ .inductor ∧ kind ≠ .voltageSource := by
  unfold ElementKind.ofKeyword? at h
  split at h <;> cases h <;> exact ⟨nofun, nofun⟩

/-- A digit is no letter in another case. -/
theorem isDigit_toUpper {c : Char} (h : isDigit c = true) : c.toUpper = c := by
  simp only [isDigit, Bool.and_eq_true, decide_eq_true_eq, Char.le_def, UInt32.le_iff_toNat_le] at h
  have small : ¬ (97 ≤ c.val ∧ c.val ≤ 122) := by
    simp only [UInt32.le_iff_toNat_le]
    intro lower
    exact absurd (Nat.le_trans lower.1 h.2) (by decide)
  exact dif_neg small

/-- A name that implies an inductor or a source of voltage starts with a letter. -/
theorem head_of_name {name : String} {kind : ElementKind} (h : ElementKind.ofName? name = some kind)
    (branch : kind = .inductor ∨ kind = .voltageSource) : name.toList.head?.any isDigit = false := by
  have upper : name.toUpper.toList = name.toList.map Char.toUpper := by simp [String.toUpper]
  unfold ElementKind.ofName? at h
  rw [upper] at h
  cases first : name.toList with
  | nil => rfl
  | cons c cs =>
    rw [first, List.map_cons] at h
    rw [List.head?_cons, Option.any_some]
    cases digit : isDigit c with
    | false => rfl
    | true =>
      rw [isDigit_toUpper digit] at h
      split at h <;> cases h
      all_goals first
        | exact absurd branch (by decide)
        | (next same =>
            cases same
            exact absurd digit (by decide))

/-- An element that its name puts among the inductors or the sources of voltage has no point in its name. -/
theorem IsNamed.introduces {l rest : Line} {kind : ElementKind} {name : String} (named : l.IsNamed)
    (form : l.Introduces kind name rest) (branch : kind = .inductor ∨ kind = .voltageSource) :
    '.' ∉ name.toList := by
  cases form with
  | keyword first keyword =>
    obtain ⟨inductor, source⟩ := kind_of_keyword keyword
    exact branch.elim (absurd · inductor) (absurd · source)
  | name first other found => exact ((named.take first).2 rfl).point (head_of_name found branch)

variable {α : Type} [Scalar α]

omit [Scalar α] in
theorem addValue_name (e : Element α) (v : Expr α) :
    (e.addValue v).kind = e.kind ∧ (e.addValue v).name = e.name := by
  unfold Element.addValue
  split <;> exact ⟨rfl, rfl⟩

/-- What stands behind the nodes does not change what an element is and how it is called. -/
theorem Sets.name {e e' : Element α} {l rest : Line} (form : Sets e l e' rest) :
    e'.kind = e.kind ∧ e'.name = e.name := by
  have added {e e' : Element α} {v : Expr α} (ih : e'.kind = (e.addValue v).kind ∧ e'.name = (e.addValue v).name) :
      e'.kind = e.kind ∧ e'.name = e.name :=
    ⟨ih.1.trans (addValue_name e v).1, ih.2.trans (addValue_name e v).2⟩
  induction form with
  | ended => exact ⟨rfl, rfl⟩
  | assigned _ _ _ _ ih | keyword _ _ _ _ _ ih | model _ _ _ _ _ ih => exact ih
  | number _ _ _ _ _ ih | value _ _ _ ih => exact added ih

/-- An inductor or a source of voltage has no point in its name. -/
theorem IsNamed.takeElement {l rest : Line} {e : Element α} (named : l.IsNamed)
    (taken : l.takeElement = .ok (e, rest)) (branch : e.kind = .inductor ∨ e.kind = .voltageSource) :
    '.' ∉ e.name.toList := by
  obtain ⟨kind, name, l₁, nodes, l₂, first, -, -, settings⟩ := takeElement_eq_ok_iff.mp taken
  obtain ⟨same, called⟩ := settings.name
  rw [called]
  rw [same] at branch
  exact named.introduces first branch

end Line

/-! ## Parameters -/

theorem Line.IsNamed.declaresParameter {α : Type} [Scalar α] {l rest : Line} {p : Parameter α} (named : l.IsNamed)
    (form : l.DeclaresParameter p rest) : '[' ∉ p.name.toList := by
  cases form with
  | assigned first | plain first => exact ((named.take first).2 rfl).bracket

/-! ## Netlists -/

/-- The names that a netlist declares are apart from each other as far as unknowns are called after them: parameters and
nodes are declared once, neither parameters nor the input signal have a bracket in their names, and inductors and sources
of voltage no point. -/
structure IsWellNamed {α : Type} (n : Netlist α) : Prop where
  elements : ∀ e ∈ n.elements, e.kind = .inductor ∨ e.kind = .voltageSource → '.' ∉ e.name.toList
  parameters : (n.parameters.map (·.name)).Nodup
  brackets : ∀ p ∈ n.parameters, '[' ∉ p.name.toList
  signal : ∀ name, n.inputName? = some name → '[' ∉ name.toList
  nodes : ("0" :: n.nodes).Nodup

variable {α : Type}

theorem isWellNamed_empty : (empty : Netlist α).IsWellNamed :=
  ⟨nofun, List.nodup_nil, nofun, nofun, by simp [empty]⟩

theorem IsWellNamed.addNode {n : Netlist α} (h : n.IsWellNamed) (node : String) : (n.addNode node).IsWellNamed := by
  unfold Netlist.addNode
  split
  · exact h
  · next new =>
    simp only [Bool.or_eq_true, beq_iff_eq, List.contains_iff_mem, not_or] at new
    refine { h with nodes := ?_ }
    show (("0" :: n.nodes) ++ [node]).Nodup
    refine List.nodup_append.mpr ⟨h.nodes, by simp, fun a ha b hb => ?_⟩
    rintro rfl
    rw [List.mem_singleton.mp hb, List.mem_cons] at ha
    exact ha.elim new.1 new.2

theorem IsWellNamed.foldl_addNode {n : Netlist α} (h : n.IsWellNamed) (nodes : List String) :
    (nodes.foldl Netlist.addNode n).IsWellNamed := by
  induction nodes generalizing n with
  | nil => exact h
  | cons node nodes ih => exact ih (h.addNode node)

variable [Scalar α]

theorem IsWellNamed.takeDirective {n n' : Netlist α} {l rest : Line} (h : n.IsWellNamed) (named : l.IsNamed)
    (taken : l.takeDirective n = .ok (n', rest)) : n'.IsWellNamed := by
  obtain ⟨word, directive, l₁, h₁, first, -, form⟩ := Line.takeDirective_eq_ok_iff.mp taken
  have named := (named.take first).1
  cases form with
  | input | output | model => exact { h with }
  | signal second third =>
    refine { h with signal := ?_ }
    rintro _ ⟨⟩
    exact (((Line.stable_isNamed.takeNode named second).take third).2 rfl).bracket
  | node => exact h.addNode _
  | @parameter p _ declared new =>
    have other : p.name ∉ n.parameters.map (·.name) := by simpa using new
    refine { h with parameters := ?_, brackets := ?_ }
    · rw [List.map_append, List.map_singleton]
      refine List.nodup_append.mpr ⟨h.parameters, by simp, fun a ha b hb => ?_⟩
      rintro rfl
      exact other (List.mem_singleton.mp hb ▸ ha)
    · exact List.forall_mem_append.mpr ⟨h.brackets, List.forall_mem_singleton.mpr (named.declaresParameter declared)⟩

theorem IsWellNamed.readLine {n n' : Netlist α} {l : Line} (h : n.IsWellNamed) (named : l.IsNamed)
    (read : readLine n l = .ok n') : n'.IsWellNamed := by
  cases readLine_eq_ok_iff.mp read with
  | blank => exact h
  | directive taken => exact h.takeDirective named taken
  | element taken =>
    refine { h with elements := ?_ }
    exact List.forall_mem_append.mpr ⟨h.elements, List.forall_mem_singleton.mpr (named.takeElement taken)⟩

theorem isWellNamed_foldlM {ls : List Line} {n n' : Netlist α} (h : n.IsWellNamed)
    (named : ∀ l ∈ ls, l.IsNamed) (read : ls.foldlM Netlist.readLine n = .ok n') : n'.IsWellNamed := by
  induction ls generalizing n with
  | nil => cases read; exact h
  | cons l ls ih =>
    obtain ⟨first, named⟩ := List.forall_mem_cons.mp named
    rw [List.foldlM_cons] at read
    obtain ⟨n₁, line, read⟩ := exists_of_bind_eq_ok read
    exact ih (h.readLine first line) named read

/-- The names in a netlist that a text denotes are apart from each other. -/
theorem isWellNamed_parse {text : String} {n : Netlist α} (h : parse text = .ok n) : n.IsWellNamed := by
  obtain ⟨m, read, rfl⟩ := parse_eq_ok_iff_foldlM.mp h
  refine (isWellNamed_foldlM isWellNamed_empty (fun l hl t ht => ?_) read).foldl_addNode _
  exact isName_tokensFrom _ _ t (Line.mem_ofTokens l hl t ht)

end AnalogCircuit.Netlist
