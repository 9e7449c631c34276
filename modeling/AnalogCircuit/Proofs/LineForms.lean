import AnalogCircuit.Netlist.Parse
/-!
# The forms of lines

What a line may hold, as relations between a line, what is read from it and what is left of it: one constructor for each
form of a directive, a parameter, a model or an element. A reader answers exactly if the line has one of the forms, so
that proofs about what was read go by the form, and only the equivalences here open the readers.
-/

namespace AnalogCircuit.Netlist

namespace Line

/-! ## Single tokens -/

/-- What is taken is the next token. -/
theorem take_eq_ok {l : Line} {kind : TokenKind} {t : Token} {rest : Line}
    {h : rest.tokens.length < l.tokens.length} (taken : l.take kind = .ok ⟨(t, rest), h⟩) :
    t.kind = kind ∧ l.tokens = t :: rest.tokens ∧ rest = { l with tokens := rest.tokens } := by
  unfold take at taken
  split at taken
  · cases taken
  next t' ts found =>
  split at taken
  · next same =>
    split at taken
    · cases taken
    · cases taken
      exact ⟨same, found, rfl⟩
  · cases taken

theorem next_of_take {l rest : Line} {kind : TokenKind} {t : Token} {h : rest.tokens.length < l.tokens.length}
    (taken : l.take kind = .ok ⟨(t, rest), h⟩) : l.next = t := by
  rw [next, (take_eq_ok taken).2.1, List.headD_cons]

theorem next_kind_of_take {l rest : Line} {kind : TokenKind} {t : Token} {h : rest.tokens.length < l.tokens.length}
    (taken : l.take kind = .ok ⟨(t, rest), h⟩) : l.next.kind = kind := by
  rw [next_of_take taken, (take_eq_ok taken).1]

/-- The next token can be taken, and the last one if no fault is behind it. -/
theorem take_of_tokens {l : Line} {t : Token} {ts : List Token} (tokens : l.tokens = t :: ts)
    (faultless : ts = [] → l.fault = none) : ∃ h, l.take t.kind = .ok ⟨(t, { l with tokens := ts }), h⟩ := by
  obtain ⟨number, tokens', ending, fault⟩ := l
  subst tokens
  refine ⟨Nat.lt_succ_self _, ?_⟩
  cases ts with
  | nil =>
    obtain rfl : fault = none := faultless rfl
    simp [take]
  | cons => simp [take]

/-- A line from which something is taken is not at its end. -/
theorem more_of_lt {l rest : Line} (h : rest.tokens.length < l.tokens.length) : ¬l.atEnd = true := by
  intro ended
  rw [List.isEmpty_iff.mp ended] at h
  exact absurd h (Nat.not_lt_zero _)

/-! ## Nodes, numbers and values -/

/-- A node is taken if and only if the next token is a word, or a number of digits. -/
theorem takeNode_eq_ok_iff {l rest : Line} {node : String} {h : rest.tokens.length < l.tokens.length} :
    l.takeNode = .ok ⟨(node, rest), h⟩ ↔ ∃ t, l.take t.kind = .ok ⟨(t, rest), h⟩ ∧
      (t.kind = .identifier ∨ t.kind = .number ∧ t.text.toList.all Numeral.isDigit = true) ∧
      groundedName t.text = node := by
  unfold takeNode
  constructor
  · intro taken
    dsimp only at taken
    split at taken
    · next valid =>
      obtain ⟨⟨⟨t, l'⟩, h'⟩, first, taken⟩ := exists_of_bind_eq_ok taken
      cases taken
      rw [next_of_take first] at first valid
      exact ⟨t, first, by simpa using valid, rfl⟩
    · cases taken
  · rintro ⟨t, first, valid, rfl⟩
    dsimp only
    rw [next_of_take first, if_pos (by simpa using valid), first]
    rfl

/-- A number is taken if and only if the next token is one. -/
theorem takeNumber_eq_ok_iff {α : Type} [Scalar α] {l rest : Line} {v : α} {h : rest.tokens.length < l.tokens.length} :
    l.takeNumber = .ok ⟨(v, rest), h⟩ ↔ ∃ t, l.take t.kind = .ok ⟨(t, rest), h⟩ ∧
      (t.kind = .number ∨ t.kind = .identifier) ∧ readValue t.text = .ok (some v) := by
  unfold takeNumber
  constructor
  · intro taken
    dsimp only at taken
    split at taken
    · next valid =>
      obtain ⟨⟨⟨t, l'⟩, h'⟩, first, taken⟩ := exists_of_bind_eq_ok taken
      obtain ⟨v?, value, taken⟩ := exists_of_bind_eq_ok taken
      dsimp only at value taken
      split at taken <;> cases taken
      rw [next_of_take first] at first valid
      exact ⟨t, first, by simpa using valid, value⟩
    · cases taken
  · rintro ⟨t, first, valid, value⟩
    dsimp only
    rw [next_of_take first, if_pos (by simpa using valid), first]
    dsimp only [bind, Except.bind]
    rw [value]
    rfl

end Line

/-- What a token is as a value. -/
inductive Token.HasValue {α : Type} [Scalar α] (t : Token) : Expr α → Prop
  | expression {e : Expr α} (kind : t.kind = .expression) (parsed : Expr.parse t.text = .ok e) : HasValue t e
  | number {v : α} (kind : t.kind = .number ∨ t.kind = .identifier) (read : readValue t.text = .ok (some v)) :
      HasValue t (.mkNum v)

theorem Token.HasValue.of_content {α : Type} [Scalar α] {t t' : Token} {e : Expr α} (h : t.HasValue e)
    (kind : t'.kind = t.kind) (text : t'.text = t.text) : t'.HasValue e := by
  cases h with
  | expression kind' parsed => exact .expression (kind.trans kind') (text ▸ parsed)
  | number kind' read => exact .number (kind ▸ kind') (text ▸ read)

namespace Line

variable {α : Type}

/-- A value is taken if and only if the next token has it. -/
theorem takeValue_eq_ok_iff [Scalar α] {l rest : Line} {e : Expr α} {h : rest.tokens.length < l.tokens.length} :
    l.takeValue = .ok ⟨(e, rest), h⟩ ↔ ∃ t, l.take t.kind = .ok ⟨(t, rest), h⟩ ∧ t.HasValue e := by
  unfold takeValue
  constructor
  · intro taken
    split at taken
    · obtain ⟨⟨⟨t, l'⟩, h'⟩, first, taken⟩ := exists_of_bind_eq_ok taken
      dsimp only at taken
      split at taken <;> cases taken
      next parsed =>
      obtain ⟨kind, -⟩ := take_eq_ok first
      exact ⟨t, kind ▸ first, .expression kind parsed⟩
    · obtain ⟨⟨⟨v, l'⟩, h'⟩, number, taken⟩ := exists_of_bind_eq_ok taken
      cases taken
      obtain ⟨t, first, valid, value⟩ := takeNumber_eq_ok_iff.mp number
      exact ⟨t, first, .number valid value⟩
  · rintro ⟨t, first, ⟨kind, parsed⟩ | ⟨kind, value⟩⟩
    · rw [next_of_take first, if_pos kind, ← kind, first]
      dsimp only [bind, Except.bind]
      rw [parsed]
      rfl
    · have other : t.kind ≠ .expression := by rcases kind with kind | kind <;> rw [kind] <;> nofun
      rw [next_of_take first, if_neg other, takeNumber_eq_ok_iff.mpr ⟨t, first, kind, value⟩]
      rfl

/-! ## Kinds and nodes of elements -/

/-- A keyword and a name, or a name that implies the kind. -/
inductive Introduces (l : Line) : ElementKind → String → Line → Prop
  | keyword {word name : Token} {l₁ rest : Line} {kind : ElementKind} {h₁ : l₁.tokens.length < l.tokens.length}
      {h₂ : rest.tokens.length < l₁.tokens.length} (first : l.take .identifier = .ok ⟨(word, l₁), h₁⟩)
      (found : ElementKind.ofKeyword? word.text = some kind)
      (second : l₁.take .identifier = .ok ⟨(name, rest), h₂⟩) : Introduces l kind name.text rest
  | name {word : Token} {rest : Line} {kind : ElementKind} {h : rest.tokens.length < l.tokens.length}
      (first : l.take .identifier = .ok ⟨(word, rest), h⟩) (other : ElementKind.ofKeyword? word.text = none)
      (found : ElementKind.ofName? word.text = some kind) : Introduces l kind word.text rest

theorem takeKind_eq_ok_iff {l rest : Line} {kind : ElementKind} {name : String} :
    l.takeKind = .ok (kind, name, rest) ↔ Introduces l kind name rest := by
  constructor
  · intro taken
    unfold takeKind at taken
    obtain ⟨⟨⟨word, l₁⟩, h₁⟩, first, taken⟩ := exists_of_bind_eq_ok taken
    dsimp only at taken
    split at taken
    · next found =>
      obtain ⟨⟨⟨t, l₂⟩, h₂⟩, second, taken⟩ := exists_of_bind_eq_ok taken
      cases taken
      exact .keyword first found second
    next other =>
    split at taken <;> cases taken
    next found =>
    exact .name first other found
  · intro form
    unfold takeKind
    cases form with
    | keyword first found second =>
      rw [first]
      dsimp only [bind, Except.bind]
      rw [found]
      dsimp only
      rw [second]
      rfl
    | name first other found =>
      rw [first]
      dsimp only [bind, Except.bind]
      rw [other, found]
      rfl

theorem Introduces.exists_take {l rest : Line} {kind : ElementKind} {name : String} (h : Introduces l kind name rest) :
    ∃ (word : Token) (l₁ : Line) (lt : l₁.tokens.length < l.tokens.length),
      l.take .identifier = .ok ⟨(word, l₁), lt⟩ := by
  cases h with
  | keyword first | name first => exact ⟨_, _, _, first⟩

/-- A node for each terminal, or as many as there are. -/
inductive Connects : List String → Line → List String → Line → Prop
  | all {l : Line} : Connects [] l [] l
  | ended {terminal : String} {terminals : List String} {l : Line} (ended : l.atEnd = true) :
      Connects (terminal :: terminals) l [] l
  | node {terminal node : String} {terminals nodes : List String} {l l₁ rest : Line}
      {h : l₁.tokens.length < l.tokens.length} (first : l.takeNode = .ok ⟨(node, l₁), h⟩)
      (others : Connects terminals l₁ nodes rest) : Connects (terminal :: terminals) l (node :: nodes) rest

theorem takeNodes_eq_ok_iff {l rest : Line} {terminals nodes : List String} :
    takeNodes l terminals = .ok (nodes, rest) ↔ Connects terminals l nodes rest := by
  constructor
  · intro taken
    induction terminals generalizing l nodes with
    | nil =>
      cases taken
      exact .all
    | cons t terminals ih =>
      unfold takeNodes at taken
      split at taken
      · next ended =>
        cases taken
        exact .ended ended
      · obtain ⟨⟨⟨node, l₁⟩, h₁⟩, first, taken⟩ := exists_of_bind_eq_ok taken
        obtain ⟨⟨nodes', l₂⟩, second, taken⟩ := exists_of_bind_eq_ok taken
        cases taken
        exact .node first (ih second)
  · intro form
    induction form with
    | all => rfl
    | ended ended =>
      unfold takeNodes
      rw [if_pos ended]
      rfl
    | @node _ _ _ _ _ _ _ h first _ ih =>
      unfold takeNodes
      rw [if_neg (more_of_lt h), first]
      dsimp only [bind, Except.bind]
      rw [ih]
      rfl

variable [Scalar α]

/-! ## Parameters and models -/

/-- A name, an equals sign or none, and a number. -/
inductive DeclaresParameter (l : Line) : Parameter α → Line → Prop
  | assigned {name sign : Token} {l₁ l₂ rest : Line} {v : α} {h₁ : l₁.tokens.length < l.tokens.length}
      {h₂ : l₂.tokens.length < l₁.tokens.length} {h₃ : rest.tokens.length < l₂.tokens.length}
      (first : l.take .identifier = .ok ⟨(name, l₁), h₁⟩) (second : l₁.take .equals = .ok ⟨(sign, l₂), h₂⟩)
      (third : l₂.takeNumber = .ok ⟨(v, rest), h₃⟩) : DeclaresParameter l ⟨name.text, v, rest.number⟩ rest
  | plain {name : Token} {l₁ rest : Line} {v : α} {h₁ : l₁.tokens.length < l.tokens.length}
      {h₂ : rest.tokens.length < l₁.tokens.length} (first : l.take .identifier = .ok ⟨(name, l₁), h₁⟩)
      (unassigned : l₁.next.kind ≠ .equals) (second : l₁.takeNumber = .ok ⟨(v, rest), h₂⟩) :
      DeclaresParameter l ⟨name.text, v, rest.number⟩ rest

theorem takeParameter_eq_ok_iff {l rest : Line} {p : Parameter α} :
    l.takeParameter = .ok (p, rest) ↔ DeclaresParameter l p rest := by
  constructor
  · intro taken
    unfold takeParameter at taken
    obtain ⟨⟨⟨name, l₁⟩, h₁⟩, first, taken⟩ := exists_of_bind_eq_ok taken
    dsimp only at taken
    split at taken
    · obtain ⟨⟨⟨sign, l₂⟩, h₂⟩, second, taken⟩ := exists_of_bind_eq_ok taken
      obtain ⟨⟨⟨v, l₃⟩, h₃⟩, third, taken⟩ := exists_of_bind_eq_ok taken
      cases taken
      exact .assigned first second third
    · next unassigned =>
      obtain ⟨⟨⟨v, l₂⟩, h₂⟩, second, taken⟩ := exists_of_bind_eq_ok taken
      cases taken
      exact .plain first unassigned second
  · intro form
    unfold takeParameter
    cases form with
    | assigned first second third =>
      rw [first]
      dsimp only [bind, Except.bind]
      rw [if_pos (next_kind_of_take second), second]
      dsimp only
      rw [third]
      rfl
    | plain first unassigned second =>
      rw [first]
      dsimp only [bind, Except.bind]
      rw [if_neg unassigned, second]
      rfl

/-- Settings up to the bracket that closes them. -/
inductive Configures : List (String × α) → Line → List (String × α) → Line → Prop
  | closed {settings : List (String × α)} {l rest : Line} {closing : Token} {h : rest.tokens.length < l.tokens.length}
      (first : l.take .closeParen = .ok ⟨(closing, rest), h⟩) : Configures settings l settings rest
  | assigned {settings settings' : List (String × α)} {l l₁ l₂ l₃ rest : Line} {key sign : Token} {v : α}
      {h₁ : l₁.tokens.length < l.tokens.length} {h₂ : l₂.tokens.length < l₁.tokens.length}
      {h₃ : l₃.tokens.length < l₂.tokens.length} (first : l.take .identifier = .ok ⟨(key, l₁), h₁⟩)
      (second : l₁.take .equals = .ok ⟨(sign, l₂), h₂⟩) (third : l₂.takeNumber = .ok ⟨(v, l₃), h₃⟩)
      (others : Configures (assign settings (Text.lower key.text) v) l₃ settings' rest) :
      Configures settings l settings' rest

theorem takeModelSettings_eq_ok_iff {settings settings' : List (String × α)} {l rest : Line} :
    takeModelSettings settings l = .ok (settings', rest) ↔ Configures settings l settings' rest := by
  constructor
  · intro taken
    fun_induction takeModelSettings settings l with
    | case1 settings l =>
      obtain ⟨⟨⟨t, l₁⟩, h₁⟩, first, taken⟩ := exists_of_bind_eq_ok taken
      cases taken
      exact .closed first
    | case2 settings l more ih =>
      obtain ⟨⟨⟨key, l₁⟩, h₁⟩, first, taken⟩ := exists_of_bind_eq_ok taken
      obtain ⟨⟨⟨t, l₂⟩, h₂⟩, second, taken⟩ := exists_of_bind_eq_ok taken
      obtain ⟨⟨⟨v, l₃⟩, h₃⟩, third, taken⟩ := exists_of_bind_eq_ok taken
      exact .assigned first second third (ih key l₁ h₁ t l₂ h₂ v l₃ h₃ taken)
  · intro form
    induction form with
    | closed first =>
      unfold takeModelSettings
      rw [if_pos (by simp [next_kind_of_take first]), first]
      rfl
    | @assigned settings settings' l l₁ l₂ l₃ rest key sign v h₁ h₂ h₃ first second third others ih =>
      unfold takeModelSettings
      rw [if_neg (by simp [next_kind_of_take first, more_of_lt h₁]), first]
      dsimp only [bind, Except.bind]
      rw [second]
      dsimp only
      rw [third]
      exact ih

/-- A name, a kind, and settings in brackets or none. -/
inductive DeclaresModel (l : Line) : Model α → Line → Prop
  | configured {name kind opening : Token} {l₁ l₂ l₃ rest : Line} {modelKind : ModelKind}
      {settings : List (String × α)} {h₁ : l₁.tokens.length < l.tokens.length}
      {h₂ : l₂.tokens.length < l₁.tokens.length} {h₃ : l₃.tokens.length < l₂.tokens.length}
      (first : l.take .identifier = .ok ⟨(name, l₁), h₁⟩) (second : l₁.take .identifier = .ok ⟨(kind, l₂), h₂⟩)
      (known : ModelKind.ofWord? kind.text = some modelKind) (third : l₂.take .openParen = .ok ⟨(opening, l₃), h₃⟩)
      (fourth : Configures [] l₃ settings rest) :
      DeclaresModel l ⟨name.text, modelKind, settings, l₂.number⟩ rest
  | bare {name kind : Token} {l₁ rest : Line} {modelKind : ModelKind} {h₁ : l₁.tokens.length < l.tokens.length}
      {h₂ : rest.tokens.length < l₁.tokens.length} (first : l.take .identifier = .ok ⟨(name, l₁), h₁⟩)
      (second : l₁.take .identifier = .ok ⟨(kind, rest), h₂⟩) (known : ModelKind.ofWord? kind.text = some modelKind)
      (unopened : rest.next.kind ≠ .openParen) : DeclaresModel l ⟨name.text, modelKind, [], rest.number⟩ rest

theorem takeModel_eq_ok_iff {l rest : Line} {m : Model α} : l.takeModel = .ok (m, rest) ↔ DeclaresModel l m rest := by
  constructor
  · intro taken
    unfold takeModel at taken
    obtain ⟨⟨⟨name, l₁⟩, h₁⟩, first, taken⟩ := exists_of_bind_eq_ok taken
    obtain ⟨⟨⟨kind, l₂⟩, h₂⟩, second, taken⟩ := exists_of_bind_eq_ok taken
    dsimp only at taken
    split at taken
    · cases taken
    next known =>
    split at taken
    · obtain ⟨⟨⟨t, l₃⟩, h₃⟩, third, taken⟩ := exists_of_bind_eq_ok taken
      obtain ⟨⟨settings, l₄⟩, fourth, taken⟩ := exists_of_bind_eq_ok taken
      cases taken
      exact .configured first second known third (takeModelSettings_eq_ok_iff.mp fourth)
    · next unopened =>
      cases taken
      exact .bare first second known unopened
  · intro form
    unfold takeModel
    cases form with
    | configured first second known third fourth =>
      rw [first]
      dsimp only [bind, Except.bind]
      rw [second]
      dsimp only
      rw [known]
      dsimp only
      rw [if_pos (next_kind_of_take third), third]
      dsimp only
      rw [takeModelSettings_eq_ok_iff.mpr fourth]
      rfl
    | bare first second known unopened =>
      rw [first]
      dsimp only [bind, Except.bind]
      rw [second]
      dsimp only
      rw [known]
      dsimp only
      rw [if_neg unopened]
      rfl

/-! ## Directives -/

/-- What a directive may hold behind its word, and what it declares. -/
inductive Declares (n : Netlist α) (l : Line) : String → Netlist α → Line → Prop
  | input {node : String} {rest : Line} {h : rest.tokens.length < l.tokens.length}
      (first : l.takeNode = .ok ⟨(node, rest), h⟩) (nameless : rest.next.kind ≠ .identifier) :
      Declares n l ".input" { n with inputNode? := some node } rest
  | signal {node : String} {name : Token} {l₁ rest : Line} {h₁ : l₁.tokens.length < l.tokens.length}
      {h₂ : rest.tokens.length < l₁.tokens.length} (first : l.takeNode = .ok ⟨(node, l₁), h₁⟩)
      (second : l₁.take .identifier = .ok ⟨(name, rest), h₂⟩) :
      Declares n l ".input" { n with inputNode? := some node, inputName? := some name.text } rest
  | output {node : String} {rest : Line} {h : rest.tokens.length < l.tokens.length}
      (first : l.takeNode = .ok ⟨(node, rest), h⟩) : Declares n l ".output" { n with outputNode? := some node } rest
  | node {node : String} {rest : Line} {h : rest.tokens.length < l.tokens.length}
      (first : l.takeNode = .ok ⟨(node, rest), h⟩) : Declares n l ".node" (n.addNode node) rest
  | parameter {p : Parameter α} {rest : Line} (first : DeclaresParameter l p rest)
      (fresh : ¬n.parameters.any (·.name == p.name) = true) :
      Declares n l ".param" { n with parameters := n.parameters ++ [p] } rest
  | model {m : Model α} {rest : Line} (first : DeclaresModel l m rest)
      (fresh : ¬n.models.any (·.name == m.name) = true) :
      Declares n l ".model" { n with models := n.models ++ [m] } rest

theorem takeDirective_eq_ok_iff {n m : Netlist α} {l rest : Line} : l.takeDirective n = .ok (m, rest) ↔
    ∃ (word : Token) (directive : String) (l₁ : Line) (h : l₁.tokens.length < l.tokens.length),
      l.take .directive = .ok ⟨(word, l₁), h⟩ ∧ Text.lower word.text = directive ∧ Declares n l₁ directive m rest := by
  constructor
  · intro taken
    unfold takeDirective at taken
    obtain ⟨⟨⟨word, l₁⟩, h₁⟩, first, taken⟩ := exists_of_bind_eq_ok taken
    refine ⟨word, _, l₁, h₁, first, rfl, ?_⟩
    dsimp only at taken
    generalize Text.lower word.text = directive at taken ⊢
    split at taken
    · obtain ⟨⟨⟨node, l₂⟩, h₂⟩, second, taken⟩ := exists_of_bind_eq_ok taken
      dsimp only at taken
      split at taken
      · obtain ⟨⟨⟨name, l₃⟩, h₃⟩, third, taken⟩ := exists_of_bind_eq_ok taken
        cases taken
        exact .signal second third
      · next nameless =>
        cases taken
        exact .input second nameless
    · obtain ⟨⟨⟨node, l₂⟩, h₂⟩, second, taken⟩ := exists_of_bind_eq_ok taken
      cases taken
      exact .output second
    · obtain ⟨⟨⟨node, l₂⟩, h₂⟩, second, taken⟩ := exists_of_bind_eq_ok taken
      cases taken
      exact .node second
    · obtain ⟨⟨p, l₂⟩, second, taken⟩ := exists_of_bind_eq_ok taken
      dsimp only at taken
      split at taken
      · cases taken
      next fresh =>
      cases taken
      exact .parameter (takeParameter_eq_ok_iff.mp second) fresh
    · obtain ⟨⟨model, l₂⟩, second, taken⟩ := exists_of_bind_eq_ok taken
      dsimp only at taken
      split at taken
      · cases taken
      next fresh =>
      cases taken
      exact .model (takeModel_eq_ok_iff.mp second) fresh
    · cases taken
  · rintro ⟨word, directive, l₁, h₁, first, spelled, form⟩
    unfold takeDirective
    rw [first]
    dsimp only [bind, Except.bind]
    rw [spelled]
    cases form with
    | input second nameless =>
      rw [second]
      dsimp only
      rw [if_neg nameless]
      rfl
    | signal second third =>
      rw [second]
      dsimp only
      rw [if_pos (next_kind_of_take third), third]
      rfl
    | output second | node second =>
      rw [second]
      rfl
    | parameter second fresh =>
      rw [takeParameter_eq_ok_iff.mpr second]
      dsimp only
      rw [if_neg fresh]
      rfl
    | model second fresh =>
      rw [takeModel_eq_ok_iff.mpr second]
      dsimp only
      rw [if_neg fresh]
      rfl

/-! ## Elements -/

/-- What may stand behind the nodes of an element, up to the end of its line. -/
inductive Sets : Element α → Line → Element α → Line → Prop
  | ended {e : Element α} {l : Line} (ended : l.atEnd = true) : Sets e l e l
  | assigned {e e' : Element α} {l l₁ l₂ l₃ rest : Line} {word sign : Token} {v : Expr α}
      {h₁ : l₁.tokens.length < l.tokens.length} {h₂ : l₂.tokens.length < l₁.tokens.length}
      {h₃ : l₃.tokens.length < l₂.tokens.length} (first : l.take .identifier = .ok ⟨(word, l₁), h₁⟩)
      (second : l₁.take .equals = .ok ⟨(sign, l₂), h₂⟩) (third : l₂.takeValue = .ok ⟨(v, l₃), h₃⟩)
      (others : Sets (e.set (Text.lower word.text) v) l₃ e' rest) : Sets e l e' rest
  | keyword {e e' : Element α} {l l₁ l₂ rest : Line} {word : Token} {v : Expr α}
      {h₁ : l₁.tokens.length < l.tokens.length} {h₂ : l₂.tokens.length < l₁.tokens.length}
      (first : l.take .identifier = .ok ⟨(word, l₁), h₁⟩) (unassigned : l₁.next.kind ≠ .equals)
      (keyword : (decide (word.text.toUpper = "DC") || decide (word.text.toUpper = "AC")) = true)
      (second : l₁.takeValue = .ok ⟨(v, l₂), h₂⟩)
      (others : Sets (e.set (Text.lower word.text) v) l₂ e' rest) : Sets e l e' rest
  | number {e e' : Element α} {l l₁ rest : Line} {word : Token} {v : α} {h : l₁.tokens.length < l.tokens.length}
      (first : l.take .identifier = .ok ⟨(word, l₁), h⟩) (unassigned : l₁.next.kind ≠ .equals)
      (plain : ¬(decide (word.text.toUpper = "DC") || decide (word.text.toUpper = "AC")) = true)
      (denotes : readValue word.text = .ok (some v)) (others : Sets (e.addValue (.mkNum v)) l₁ e' rest) :
      Sets e l e' rest
  | model {e e' : Element α} {l l₁ rest : Line} {word : Token} {h : l₁.tokens.length < l.tokens.length}
      (first : l.take .identifier = .ok ⟨(word, l₁), h⟩) (unassigned : l₁.next.kind ≠ .equals)
      (plain : ¬(decide (word.text.toUpper = "DC") || decide (word.text.toUpper = "AC")) = true)
      (denotes : (readValue word.text : Except Error (Option α)) = .ok none)
      (others : Sets { e with model? := some word.text } l₁ e' rest) : Sets e l e' rest
  | value {e e' : Element α} {l l₁ rest : Line} {v : Expr α} {h : l₁.tokens.length < l.tokens.length}
      (kind : l.next.kind = .number ∨ l.next.kind = .expression) (first : l.takeValue = .ok ⟨(v, l₁), h⟩)
      (others : Sets (e.addValue v) l₁ e' rest) : Sets e l e' rest

theorem sets_of_takeSettings {e e' : Element α} {l rest : Line} (taken : takeSettings e l = .ok (e', rest)) :
    Sets e l e' rest := by
  fun_induction takeSettings e l with
  | case1 e l ended =>
    cases taken
    exact .ended ended
  | case2 e l more kind ih₄ ih₃ ih₂ ih₁ =>
    obtain ⟨⟨⟨word, l₁⟩, h₁⟩, first, taken⟩ := exists_of_bind_eq_ok taken
    dsimp only at taken
    split at taken
    · obtain ⟨⟨⟨t, l₂⟩, h₂⟩, second, taken⟩ := exists_of_bind_eq_ok taken
      obtain ⟨⟨⟨v, l₃⟩, h₃⟩, third, taken⟩ := exists_of_bind_eq_ok taken
      exact .assigned first second third (ih₄ word l₁ h₁ t l₂ h₂ v l₃ h₃ taken)
    next unassigned =>
    split at taken
    · next keyword =>
      obtain ⟨⟨⟨v, l₂⟩, h₂⟩, second, taken⟩ := exists_of_bind_eq_ok taken
      exact .keyword first unassigned keyword second (ih₃ word l₁ h₁ v l₂ h₂ taken)
    next plain =>
    obtain ⟨v?, denotes, taken⟩ := exists_of_bind_eq_ok taken
    split at taken
    · next v => exact .number first unassigned plain denotes (ih₂ word l₁ h₁ v taken)
    · exact .model first unassigned plain denotes (ih₁ word l₁ h₁ taken)
  | case3 e l more kind ih =>
    obtain ⟨⟨⟨v, l₁⟩, h₁⟩, first, taken⟩ := exists_of_bind_eq_ok taken
    exact .value (.inl kind) first (ih v l₁ h₁ taken)
  | case4 e l more kind ih =>
    obtain ⟨⟨⟨v, l₁⟩, h₁⟩, first, taken⟩ := exists_of_bind_eq_ok taken
    exact .value (.inr kind) first (ih v l₁ h₁ taken)
  | case5 => cases taken

theorem takeSettings_of_sets {e e' : Element α} {l rest : Line} (form : Sets e l e' rest) :
    takeSettings e l = .ok (e', rest) := by
  induction form with
  | ended ended =>
    unfold takeSettings
    rw [if_pos ended]
    rfl
  | @assigned e e' l l₁ l₂ l₃ rest word sign v h₁ h₂ h₃ first second third others ih =>
    unfold takeSettings
    rw [if_neg (more_of_lt h₁), next_kind_of_take first]
    dsimp only [bind, Except.bind]
    rw [first]
    dsimp only
    rw [if_pos (next_kind_of_take second), second]
    dsimp only
    rw [third]
    exact ih
  | @keyword e e' l l₁ l₂ rest word v h₁ h₂ first unassigned keyword second others ih =>
    unfold takeSettings
    rw [if_neg (more_of_lt h₁), next_kind_of_take first]
    dsimp only [bind, Except.bind]
    rw [first]
    dsimp only
    rw [if_neg unassigned, if_pos keyword, second]
    exact ih
  | @number e e' l l₁ rest word v h first unassigned plain denotes others ih
  | @model e e' l l₁ rest word h first unassigned plain denotes others ih =>
    unfold takeSettings
    rw [if_neg (more_of_lt h), next_kind_of_take first]
    dsimp only [bind, Except.bind]
    rw [first]
    dsimp only
    rw [if_neg unassigned, if_neg plain, denotes]
    exact ih
  | @value e e' l l₁ rest v h kind first others ih =>
    unfold takeSettings
    rw [if_neg (more_of_lt h)]
    rcases kind with kind | kind
    all_goals
      rw [kind]
      dsimp only [bind, Except.bind]
      rw [first]
      exact ih

theorem takeSettings_eq_ok_iff {e e' : Element α} {l rest : Line} :
    takeSettings e l = .ok (e', rest) ↔ Sets e l e' rest := ⟨sets_of_takeSettings, takeSettings_of_sets⟩

/-- An element has as many nodes as its kind has terminals, and settings behind them. -/
theorem takeElement_eq_ok_iff {l rest : Line} {e : Element α} : l.takeElement = .ok (e, rest) ↔
    ∃ kind name l₁ nodes l₂, Introduces l kind name l₁ ∧ Connects kind.terminals l₁ nodes l₂ ∧
      ¬nodes.length < kind.terminals.length ∧ Sets ⟨kind, name, nodes, none, none, [], l₂.number⟩ l₂ e rest := by
  constructor
  · intro taken
    unfold takeElement at taken
    obtain ⟨⟨kind, name, l₁⟩, first, taken⟩ := exists_of_bind_eq_ok taken
    obtain ⟨⟨nodes, l₂⟩, second, taken⟩ := exists_of_bind_eq_ok taken
    dsimp only at taken
    split at taken
    · cases taken
    · next all =>
      exact ⟨kind, name, l₁, nodes, l₂, takeKind_eq_ok_iff.mp first, takeNodes_eq_ok_iff.mp second, all,
        takeSettings_eq_ok_iff.mp taken⟩
  · rintro ⟨kind, name, l₁, nodes, l₂, first, second, all, third⟩
    unfold takeElement
    rw [takeKind_eq_ok_iff.mpr first]
    dsimp only [bind, Except.bind]
    rw [takeNodes_eq_ok_iff.mpr second]
    dsimp only
    rw [if_neg all]
    exact takeSettings_eq_ok_iff.mpr third

end Line

/-! ## Lines -/

variable {α : Type} [Scalar α]

/-- Nothing, a directive or an element, up to the end of the line. -/
inductive Adds (n : Netlist α) (l : Line) : Netlist α → Prop
  | blank (ended : l.atEnd = true) (sound : l.fault = none) : Adds n l n
  | directive {m : Netlist α} {rest : Line} (taken : l.takeDirective n = .ok (m, rest)) (ended : rest.atEnd = true) :
      Adds n l m
  | element {e : Element α} {rest : Line} (taken : l.takeElement = .ok (e, rest)) (ended : rest.atEnd = true) :
      Adds n l { n with elements := n.elements ++ [e] }

theorem readLine_eq_ok_iff {n m : Netlist α} {l : Line} : readLine n l = .ok m ↔ Adds n l m := by
  constructor
  · intro read
    unfold readLine at read
    split at read
    · next ended =>
      split at read <;> cases read
      next sound =>
      exact .blank ended sound
    dsimp only at read
    split at read
    · obtain ⟨⟨m', rest⟩, taken, read⟩ := exists_of_bind_eq_ok read
      dsimp only at read
      split at read <;> cases read
      next ended =>
      exact .directive taken ended
    · obtain ⟨⟨e, rest⟩, taken, read⟩ := exists_of_bind_eq_ok read
      obtain ⟨⟨m', rest'⟩, added, read⟩ := exists_of_bind_eq_ok read
      cases added
      dsimp only at read
      split at read
      · next ended =>
        cases read
        exact .element taken ended
      · cases read
    · cases read
  · intro form
    unfold readLine
    cases form with
    | blank ended sound =>
      rw [if_pos ended, sound]
      rfl
    | @directive _ rest taken ended =>
      obtain ⟨word, directive, l₁, h, first, -⟩ := Line.takeDirective_eq_ok_iff.mp taken
      rw [if_neg (Line.more_of_lt h), Line.next_kind_of_take first]
      dsimp only [bind, Except.bind]
      rw [taken]
      dsimp only
      rw [if_pos ended]
      rfl
    | @element e rest taken ended =>
      obtain ⟨kind, name, l₁, nodes, l₂, introduced, -⟩ := Line.takeElement_eq_ok_iff.mp taken
      obtain ⟨word, l', h, first⟩ := introduced.exists_take
      rw [if_neg (Line.more_of_lt h), Line.next_kind_of_take first]
      dsimp only [bind, Except.bind]
      rw [taken]
      dsimp only [pure, Except.pure]
      rw [if_pos ended]

/-- A text denotes what its lines add to the empty netlist, with the nodes of the elements. -/
theorem parse_eq_ok_iff_foldlM {text : String} {n : Netlist α} : parse text = .ok n ↔
    ∃ m, (Line.ofText text).foldlM readLine (empty : Netlist α) = .ok m ∧ n = m.withElementNodes := by
  unfold parse
  cases (Line.ofText text).foldlM readLine (empty : Netlist α) with
  | error e => exact iff_of_false nofun fun ⟨_, read, _⟩ => nomatch read
  | ok m => simp [Except.map, eq_comm]

end AnalogCircuit.Netlist
