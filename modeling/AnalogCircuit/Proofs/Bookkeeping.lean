import AnalogCircuit.Proofs.Reset
/-!
# The books of a caller

How many samples a simulation has produced, whether it has diverged, and which value each parameter has can be told
from the calls that were made and from their failures alone. Samples count if the run succeeded, and since the last
reset; a binding counts if the call was not refused, even if the run diverged, and until the parameters get their
defaults again.
-/

namespace AnalogCircuit

variable {α : Type}

/-- A sample of a run was not finite. -/
def Error.isDivergence : Error → Bool
  | diverged _ _ => true
  | _ => false

theorem Error.isDivergence_of_isRefusal {e : Error} (h : e.isRefusal = true) : e.isDivergence = false := by
  cases e with
  | diverged _ _ => cases h
  | _ => rfl

namespace Simulation

/-! ## The record of calls -/

/-- The call asks for samples. -/
def Call.isRun : Call α → Bool
  | run _ | runMono _ _ _ _ _ | process _ _ => true
  | _ => false

/-- The call goes back to the beginning. -/
def Call.isReset : Call α → Bool
  | reset => true
  | _ => false

/-- The call gives all parameters their defaults. -/
def Call.isResetParameters : Call α → Bool
  | resetParameters => true
  | _ => false

/-- How many samples a call asks for. -/
def Call.samples : Call α → Nat
  | run r => r.samples
  | runMono _ samples _ _ _ => samples.length
  | process _ buffer => buffer.length
  | _ => 0

/-- The values that a call gives to parameters; of two for a parameter the later one counts. -/
def Call.bindings : Call α → List (String × α)
  | run r => r.bindings
  | setParameter name v => [(name, v)]
  | _ => []

/-- What a run asks for can be told from the call alone. -/
theorem Call.of_request? {s : Simulation α} {c : Call α} {r : Request α} (asked : s.request? c = some r) :
    c.isRun = true ∧ r.samples = c.samples ∧ r.bindings = c.bindings := by
  cases c with
  | run | runMono => cases asked; exact ⟨rfl, rfl, rfl⟩
  | process samples buffer =>
    obtain ⟨output, -, rfl⟩ := Option.map_eq_some_iff.mp asked
    exact ⟨rfl, rfl, rfl⟩
  | setParameter | resetParameters | reset => cases asked

/-- A call that was made, and its failure if it failed. -/
structure Event (α : Type) where
  call : Call α
  error? : Option Error

namespace Event

/-- How many samples a call has produced that count. -/
def samples (e : Event α) : Nat := if e.error?.isNone then e.call.samples else 0

/-- The call was a run that has diverged. -/
def diverged (e : Event α) : Bool := e.error?.any (·.isDivergence)

/-- The value that a call has given to a parameter. -/
def binding? (name : String) (e : Event α) : Option α :=
  if e.error?.all (·.isDivergence) then e.call.bindings.reverse.lookup name else none

end Event

/-- What has happened since the last reset, in a record that begins with the latest call. -/
def sinceReset (record : List (Event α)) : List (Event α) := record.takeWhile (!·.call.isReset)

/-- What has happened since parameters were given their defaults. -/
def sinceDefaults (record : List (Event α)) : List (Event α) := record.takeWhile (!·.call.isResetParameters)

/-- The value that a parameter was given last. -/
def lastBinding? (record : List (Event α)) (name : String) : Option α :=
  (sinceDefaults record).findSome? (·.binding? name)

/-- The declared value of a parameter. -/
def default? (s : Simulation α) (name : String) : Option α :=
  (s.law.parameters.find? (·.symbol.name == name)).map (·.default)

variable [Scalar α]

/-- Calls one after the other, with their failures. -/
def events (s : Simulation α) : List (Call α) → List (Event α)
  | [] => []
  | c :: cs => ⟨c, (s.perform c).error?⟩ :: (s.perform c).simulation.events cs

/-- The record of calls, which begins with the latest one. -/
def record (s : Simulation α) (cs : List (Call α)) : List (Event α) := (s.events cs).reverse

theorem after_append (s : Simulation α) (cs : List (Call α)) (c : Call α) :
    s.after (cs ++ [c]) = ((s.after cs).perform c).simulation := by
  unfold after
  rw [List.foldl_append]
  rfl

theorem record_append (s : Simulation α) (cs : List (Call α)) (c : Call α) :
    s.record (cs ++ [c]) = ⟨c, ((s.after cs).perform c).error?⟩ :: s.record cs := by
  have events (s : Simulation α) : s.events (cs ++ [c]) = s.events cs ++ [⟨c, ((s.after cs).perform c).error?⟩] := by
    induction cs generalizing s with
    | nil => rfl
    | cons c' cs ih => exact congrArg (_ :: ·) (ih (s.perform c').simulation)
  rw [record, events, List.reverse_append]
  rfl

/-! ## Runs that are accepted -/

/-- What a run does to the number of samples and to the phase. -/
theorem execute_cases {s : Simulation α} {r : Request α} (p : Plan α) :
    let o := s.execute r p
    (∃ workspace lastInputs, o.simulation =
      { s.bindAll p.bindings with
        workspace, lastInputs, elapsed := s.elapsed + r.samples,
        phase := if r.samples = 0 then s.phase else .running }) ∧ o.error? = none ∨
    (∃ workspace lastInputs, o.simulation =
      { s.bindAll p.bindings with workspace, lastInputs, phase := .diverged }) ∧
      ∃ time name, o.error? = some (.diverged time name) := by
  obtain ⟨parameters, bound, same⟩ := s.exists_of_bindAll p.bindings
  obtain ⟨workspace, lastInputs, after⟩ := s.exists_of_frameAll r p
  rw [execute_eq, after]
  cases s.failure? r p with
  | some d => exact .inr ⟨⟨_, _, rfl⟩, _, _, rfl⟩
  | none =>
    refine .inl ⟨⟨workspace, lastInputs, ?_⟩, rfl⟩
    unfold Outcome.conclude
    dsimp only
    rw [same]
    split <;> rfl

omit [Scalar α] in
/-- Only one name reaches a place. -/
theorem eq_of_parameterPlace? {s : Simulation α} {name name' : String} {i : Nat}
    (h : s.parameterPlace? name = some i) (h' : s.parameterPlace? name' = some i) : name = name' := by
  obtain ⟨_, named, -⟩ := List.findIdx?_eq_some_iff_getElem.mp h
  obtain ⟨_, named', -⟩ := List.findIdx?_eq_some_iff_getElem.mp h'
  exact (eq_of_beq named).symm.trans (eq_of_beq named')

omit [Scalar α] in
/-- A binding gives its value to the name that reaches the place, and to no other. -/
theorem parameter?_bind {s : Simulation α} {i : Nat} {name : String} (place : s.parameterPlace? name = some i)
    (length : s.parameters.length = s.law.parameters.length) (v : α) (name' : String) :
    (s.bind i v).parameter? name' = if name' == name then some v else s.parameter? name' := by
  have inside : i < s.parameters.length := by
    have := lt_of_placeOf? place
    rwa [List.length_map, ← length] at this
  unfold parameter?
  rw [show (s.bind i v).parameterPlace? name' = s.parameterPlace? name' from rfl]
  change (s.parameterPlace? name').bind (fun j => (s.parameters.set i v)[j]?) = _
  by_cases same : name' = name
  · subst same
    rw [place, if_pos (beq_self_eq_true _)]
    exact List.getElem?_set_self inside
  · rw [if_neg (by simpa using same)]
    refine Option.bind_congr fun j hj => List.getElem?_set_ne ?_
    rintro rfl
    exact same (eq_of_parameterPlace? hj place)

omit [Scalar α] in
/-- Of several bindings for a name the last one counts. -/
theorem parameter?_bindAll {s : Simulation α} (length : s.parameters.length = s.law.parameters.length)
    (bindings : List (String × α)) (known : ∀ b ∈ bindings, (s.parameterPlace? b.1).isSome = true) (name : String) :
    (s.bindAll (bindings.filterMap fun b => (s.parameterPlace? b.1).map (·, b.2))).parameter? name =
      (bindings.reverse.lookup name).or (s.parameter? name) := by
  induction bindings generalizing s with
  | nil => rfl
  | cons b bindings ih =>
    obtain ⟨hb, known⟩ := List.forall_mem_cons.mp known
    obtain ⟨i, place⟩ := Option.isSome_iff_exists.mp hb
    rw [List.filterMap_cons_some (by rw [place]; rfl), List.reverse_cons, List.lookup_append, Option.or_assoc]
    refine (ih (s := s.bind i b.2) (List.length_set.trans length) known).trans (congrArg _ ?_)
    rw [parameter?_bind place length, List.lookup_cons, List.lookup_nil]
    cases name == b.1 <;> rfl

/-! ## The books -/

/-- What the record says of the simulation. -/
structure Books (record : List (Event α)) (s : Simulation α) : Prop where
  length : s.parameters.length = s.law.parameters.length
  elapsed : s.elapsed = ((sinceReset record).map (·.samples)).sum
  diverged : s.phase = .diverged ↔ ∃ e ∈ sinceReset record, e.diverged = true
  alive : s.phase ≠ .diverged → s.phase = if s.elapsed = 0 then .fresh else .running
  parameter : ∀ name, s.parameter? name = (s.default? name).map fun d => (lastBinding? record name).getD d

section

variable {s : Simulation α} {record : List (Event α)} {e : Event α}

omit [Scalar α] in
theorem sinceReset_cons (other : e.call.isReset = false) : sinceReset (e :: record) = e :: sinceReset record :=
  List.takeWhile_cons_of_pos (by rw [other]; rfl)

omit [Scalar α] in
theorem lastBinding?_cons (other : e.call.isResetParameters = false) (name : String) :
    lastBinding? (e :: record) name = (e.binding? name).or (lastBinding? record name) := by
  unfold lastBinding? sinceDefaults
  rw [List.takeWhile_cons_of_pos (by rw [other]; rfl), List.findSome?_cons]
  cases e.binding? name <;> rfl

omit [Scalar α] in
/-- The declared value stands at the place of the parameter. -/
theorem default?_eq (s : Simulation α) (name : String) :
    (s.parameterPlace? name).bind (fun i => (s.law.parameters.map (·.default))[i]?) = s.default? name := by
  unfold parameterPlace? placeOf? default?
  rw [List.findIdx?_map]
  cases found : s.law.parameters.findIdx? ((·.name == name) ∘ (·.symbol)) with
  | none =>
    have none : s.law.parameters.find? (·.symbol.name == name) = none :=
      List.find?_eq_none.mpr fun p hp => by simpa using List.findIdx?_eq_none_iff.mp found p hp
    rw [none]
    rfl
  | some i =>
    obtain ⟨inside, named, first⟩ := List.findIdx?_eq_some_iff_getElem.mp found
    have here : s.law.parameters.find? (·.symbol.name == name) = some s.law.parameters[i] :=
      List.find?_eq_some_iff_getElem.mpr ⟨named, i, inside, rfl, fun j hj => by simpa using first j hj⟩
    rw [here, Option.bind_some, List.getElem?_map, List.getElem?_eq_getElem inside]

omit [Scalar α] in
theorem isSome_default? {name : String} (known : (s.parameterPlace? name).isSome = true) :
    (s.default? name).isSome = true := by
  obtain ⟨i, place⟩ := Option.isSome_iff_exists.mp known
  have inside := lt_of_placeOf? place
  rw [List.length_map] at inside
  rw [← default?_eq, place, Option.bind_some, List.getElem?_map, List.getElem?_eq_getElem inside]
  rfl

omit [Scalar α] in
/-- A value that is bound comes before what was bound earlier. -/
theorem Books.rebind (h : Books record s) {name : String} {v? : Option α}
    (known : v?.isSome = true → (s.parameterPlace? name).isSome = true) :
    v?.or (s.parameter? name) = (s.default? name).map fun d => (v?.or (lastBinding? record name)).getD d := by
  cases v? with
  | none => exact h.parameter name
  | some v =>
    obtain ⟨d, hd⟩ := Option.isSome_iff_exists.mp (isSome_default? (known rfl))
    rw [hd]
    rfl

theorem Initial.books {s₀ : Simulation α} (h : s₀.Initial) : Books [] s₀ where
  length := by rw [h.parameters, List.length_map]
  elapsed := h.elapsed
  diverged := by
    rw [h.phase]
    exact ⟨fun h => (by cases h), fun ⟨_, h, _⟩ => absurd h List.not_mem_nil⟩
  alive _ := by rw [h.phase, h.elapsed]; rfl
  parameter name := by
    unfold parameter?
    rw [h.parameters, default?_eq]
    exact Option.map_id'.symm

omit [Scalar α] in
/-- A call that is refused is not entered anywhere. -/
theorem Books.refused (h : Books record s) {c : Call α} {error : Error} (refusal : error.isRefusal = true)
    (reset : c ≠ .reset) (defaults : c ≠ .resetParameters) : Books (⟨c, some error⟩ :: record) s := by
  have finite := Error.isDivergence_of_isRefusal refusal
  have reset : c.isReset = false := by cases c <;> first | rfl | exact absurd rfl reset
  have defaults : c.isResetParameters = false := by cases c <;> first | rfl | exact absurd rfl defaults
  refine ⟨h.length, ?_, ?_, h.alive, fun name => ?_⟩
  · rw [sinceReset_cons reset, List.map_cons, List.sum_cons, h.elapsed]
    exact (Nat.zero_add _).symm
  · rw [sinceReset_cons reset, h.diverged, List.exists_mem_cons_iff]
    exact (or_iff_right (by simp [Event.diverged, finite])).symm
  · have unbound : (Event.mk c (some error)).binding? name = none := by simp [Event.binding?, finite]
    rw [lastBinding?_cons defaults, unbound]
    exact h.parameter name

/-- A run that is accepted is entered: its samples if it succeeds, and its bindings in any case. -/
theorem Books.ran (h : Books record s) {c : Call α} {r : Request α} (asked : s.request? c = some r)
    (accepted : s.Accepts r) :
    Books (⟨c, (s.execute r (s.planned r)).error?⟩ :: record) (s.execute r (s.planned r)).simulation := by
  obtain ⟨isRun, samples, bindings⟩ := Call.of_request? asked
  have reset : c.isReset = false := by cases c <;> first | rfl | cases isRun
  have defaults : c.isResetParameters = false := by cases c <;> first | rfl | cases isRun
  have known {name : String} (bound : (c.bindings.reverse.lookup name).isSome = true) :
      (s.parameterPlace? name).isSome = true := by
    obtain ⟨b, hb, same⟩ := List.lookup_isSome_iff.mp bound
    rw [eq_of_beq same]
    exact accepted.bindings b (bindings ▸ List.mem_reverse.mp hb)
  have parameter (name : String) : (s.bindAll (s.planned r).bindings).parameter? name =
      (s.default? name).map fun d => ((c.bindings.reverse.lookup name).or (lastBinding? record name)).getD d := by
    rw [← h.rebind known, ← bindings]
    exact parameter?_bindAll h.length r.bindings accepted.bindings name
  have length : (s.bindAll (s.planned r).bindings).parameters.length = s.law.parameters.length :=
    bindAll_invariant (P := fun s' => s'.parameters.length = s.law.parameters.length)
      (fun _ _ _ _ _ h => List.length_set.trans h) r.bindings h.length
  have entered (error? : Option Error) (all : error?.all (·.isDivergence) = true) (name : String) :
      (Event.mk c error?).binding? name = c.bindings.reverse.lookup name := if_pos all
  have others : ¬∃ e ∈ sinceReset record, e.diverged = true := fun some => accepted.alive (h.diverged.mpr some)
  obtain ⟨parameters, bound, same⟩ := s.exists_of_bindAll (s.planned r).bindings
  rw [same] at parameter length
  -- bindings are made before the first sample, so they stay when the run diverges; samples and phase differ
  rcases execute_cases (s := s) (r := r) (s.planned r) with
    ⟨⟨workspace, lastInputs, done⟩, ok⟩ | ⟨⟨workspace, lastInputs, done⟩, time, name, failed⟩
  · rw [done, ok, same]
    refine ⟨length, ?_, ?_, fun _ => ?_, fun name => ?_⟩
    · rw [sinceReset_cons reset, List.map_cons, List.sum_cons, ← h.elapsed, Nat.add_comm]
      exact congrArg (· + s.elapsed) samples
    · have alive : (if r.samples = 0 then s.phase else .running) ≠ .diverged := by
        split
        · exact accepted.alive
        · exact fun h => by cases h
      rw [sinceReset_cons reset, List.exists_mem_cons_iff]
      exact iff_of_false alive (not_or.mpr ⟨Bool.false_ne_true, others⟩)
    · change (if r.samples = 0 then s.phase else .running) = if s.elapsed + r.samples = 0 then Phase.fresh else .running
      split
      · next zero => rw [zero, Nat.add_zero, h.alive accepted.alive]
      · next positive => rw [if_neg (by omega)]
    · rw [lastBinding?_cons defaults, entered none rfl]
      exact parameter name
  · rw [done, failed, same]
    refine ⟨length, ?_, ?_, fun alive => absurd rfl alive, fun name => ?_⟩
    · rw [sinceReset_cons reset, List.map_cons, List.sum_cons, ← h.elapsed]
      exact (Nat.zero_add _).symm
    · rw [sinceReset_cons reset, List.exists_mem_cons_iff]
      exact iff_of_true rfl (.inl rfl)
    · rw [lastBinding?_cons defaults, entered _ rfl]
      exact parameter name

omit [Scalar α] in
theorem Books.bound (h : Books record s) {name : String} {i : Nat} (place : s.parameterPlace? name = some i) (v : α) :
    Books (⟨.setParameter name v, none⟩ :: record) (s.bind i v) := by
  refine ⟨List.length_set.trans h.length, ?_, ?_, h.alive, fun name' => ?_⟩
  · rw [sinceReset_cons rfl, List.map_cons, List.sum_cons, ← h.elapsed]
    exact (Nat.zero_add _).symm
  · rw [sinceReset_cons rfl, List.exists_mem_cons_iff]
    exact h.diverged.trans (or_iff_right Bool.false_ne_true).symm
  · have value : (Event.mk (.setParameter name v) none).binding? name' = if name' == name then some v else none := by
      change List.lookup name' [(name, v)] = _
      rw [List.lookup_cons, List.lookup_nil]
      cases name' == name <;> rfl
    rw [lastBinding?_cons rfl, value, parameter?_bind place h.length]
    refine Eq.trans ?_ (h.rebind fun known => ?_)
    · split <;> rfl
    · split at known
      · next same => rw [eq_of_beq same, place]; rfl
      · cases known

omit [Scalar α] in
theorem Books.defaults (h : Books record s) : Books (⟨.resetParameters, none⟩ :: record) s.resetParameters := by
  refine ⟨List.length_map _, ?_, ?_, h.alive, fun name => ?_⟩
  · rw [sinceReset_cons rfl, List.map_cons, List.sum_cons]
    exact h.elapsed.trans (Nat.zero_add _).symm
  · rw [sinceReset_cons rfl, List.exists_mem_cons_iff]
    exact h.diverged.trans (or_iff_right Bool.false_ne_true).symm
  · exact (default?_eq s name).trans Option.map_id'.symm

theorem Books.reset (h : Books record s) : Books (⟨.reset, none⟩ :: record) s.reset where
  length := h.length
  elapsed := rfl
  diverged := ⟨fun fresh => (by cases fresh), fun ⟨_, mem, _⟩ => absurd mem List.not_mem_nil⟩
  alive _ := rfl
  parameter name := by
    rw [lastBinding?_cons rfl]
    exact h.parameter name

/-- Every call is entered in the books. -/
theorem Books.perform (h : Books record s) (c : Call α) :
    Books (⟨c, (s.perform c).error?⟩ :: record) (s.perform c).simulation := by
  have effect := s.effect c
  generalize s.perform c = o at effect
  cases effect with
  | refused refusal reset defaults => exact h.refused refusal reset defaults
  | ran asked accepted => exact h.ran asked accepted
  | bound place v => exact h.bound place v
  | defaults => exact h.defaults
  | reset => exact h.reset

/-- The books are right after any number of calls. -/
theorem Initial.books_after {s₀ : Simulation α} (h : s₀.Initial) (cs : List (Call α)) :
    Books (s₀.record cs) (s₀.after cs) := by
  induction cs using List.reverseRecOn with
  | nil => exact h.books
  | append_singleton cs c ih =>
    rw [record_append, after_append]
    exact ih.perform c

end

/-! ## The registers of parameters -/

omit [Scalar α] in
/-- Parameters of one name have one place. -/
theorem eq_of_name {ps : List (Parameter α)} (distinct : (ps.map (·.symbol.name)).Nodup) {i j : Nat}
    {p q : Parameter α} (hp : ps[i]? = some p) (hq : ps[j]? = some q) (same : p.symbol.name = q.symbol.name) :
    i = j := by
  have inside := (List.getElem?_eq_some_iff.mp hp).1
  refine (List.getElem?_inj (by rwa [List.length_map]) distinct).mp ?_
  rw [List.getElem?_map, List.getElem?_map, hp, hq]
  exact congrArg some same

omit [Scalar α] in
/-- A program reads a parameter from the register of its place, if no other one has its name. -/
theorem registerOf_parameter {law : UpdateLaw α} (distinct : (law.parameters.map (·.symbol.name)).Nodup)
    {i : Nat} {p : Parameter α} (hp : law.parameters[i]? = some p) (time : p.symbol ≠ .previousTime) :
    Program.registerOf law p.symbol = some ((Program.layoutOf law).parameter i) := by
  -- the table is searched from behind, the previous time first and then the parameters
  let own : List (Symbol × Reg) :=
    law.parameters.zipIdx.map fun entry => (entry.1.symbol, (Program.layoutOf law).parameter entry.2)
  have here : own.reverse.lookup p.symbol = some ((Program.layoutOf law).parameter i) := by
    have mem : (p.symbol, (Program.layoutOf law).parameter i) ∈ own :=
      List.mem_map.mpr ⟨(p, i), List.mk_mem_zipIdx_iff_getElem?.mpr hp, rfl⟩
    have found : (own.reverse.lookup p.symbol).isSome = true :=
      List.lookup_isSome_iff.mpr ⟨_, List.mem_reverse.mpr mem, beq_self_eq_true _⟩
    obtain ⟨r, hr⟩ := Option.isSome_iff_exists.mp found
    obtain ⟨before, behind, all, -⟩ := List.lookup_eq_some_iff.mp hr
    have mem : (p.symbol, r) ∈ own := by
      rw [← List.mem_reverse, all]
      exact List.mem_append_right _ List.mem_cons_self
    obtain ⟨⟨p', j⟩, hj, same⟩ := List.mem_map.mp mem
    obtain ⟨symbol, rfl⟩ := Prod.mk.inj same
    obtain rfl : j = i := eq_of_name distinct (List.mk_mem_zipIdx_iff_getElem?.mp hj) hp (congrArg Symbol.name symbol)
    exact hr
  unfold Program.registerOf Program.symbolTable
  dsimp only
  rw [List.reverse_append, List.reverse_append, List.reverse_singleton, List.singleton_append, List.lookup_cons,
    beq_false_of_ne time, List.lookup_append, here]
  rfl

section

variable {s₀ s : Simulation α} {record : List (Event α)}

omit [Scalar α] in
theorem Books.phase (h : Books record s) : (s.phase = .fresh ↔ s.phase ≠ .diverged ∧ s.elapsed = 0) ∧
    (s.phase = .running ↔ s.phase ≠ .diverged ∧ 0 < s.elapsed) := by
  by_cases gone : s.phase = .diverged
  · simp [gone]
  · rw [h.alive gone]
    by_cases zero : s.elapsed = 0
    · simp [zero]
    · simp [zero, Nat.pos_of_ne_zero zero]

/-- What can be told of a simulation from the calls that were made on it. -/
structure Accounted (s₀ s : Simulation α) (record : List (Event α)) : Prop where
  elapsed : s.elapsed = ((sinceReset record).map (·.samples)).sum
  diverged : s.phase = .diverged ↔ ∃ e ∈ sinceReset record, e.diverged = true
  /-- Until the next reset no run is accepted. -/
  refused : s.phase = .diverged → ∀ c, c.isRun = true → s.Refuses c
  fresh : s.phase = .fresh ↔ s.phase ≠ .diverged ∧ s.elapsed = 0
  running : s.phase = .running ↔ s.phase ≠ .diverged ∧ 0 < s.elapsed
  parameter : ∀ name, s.parameter? name = (s₀.default? name).map fun d => (lastBinding? record name).getD d
  reset : s.reset.parameter? = s.parameter?
  register : ∀ name i, s.parameterPlace? name = some i →
    s.parameter? name = some (s.workspace.registers.value (s.program.layout.parameter i))
  /-- The program reads the values of the parameters. -/
  read : ∀ p ∈ s.law.parameters, p.symbol ≠ .previousTime → ∃ r,
    Program.registerOf s.law p.symbol = some r ∧ s.parameter? p.symbol.name = some (s.workspace.registers.value r)

/-- The books of a caller are right, whatever calls are made. -/
theorem accounted_after (built : s₀.Built) (distinct : (s₀.law.parameters.map (·.symbol.name)).Nodup)
    (cs : List (Call α)) : Accounted s₀ (s₀.after cs) (s₀.record cs) := by
  have books := built.initial.books_after cs
  have tracks := built.initial.tracks_after cs
  generalize s₀.after cs = s at books tracks
  have register (name : String) (i : Nat) (place : s.parameterPlace? name = some i) :
      s.parameter? name = some (s.workspace.registers.value (s.program.layout.parameter i)) := by
    have inside := lt_of_placeOf? place
    rw [List.length_map, ← tracks.length] at inside
    have found := List.getElem?_eq_getElem inside
    rw [parameter?, place, tracks.loaded i _ found]
    exact found
  refine ⟨books.elapsed, books.diverged, fun diverged c isRun => ?_, ?_, ?_, fun name => ?_, rfl, register,
    fun p hp time => ?_⟩
  · have effect := s.effect c
    generalize same : s.perform c = o at effect
    cases effect with
    | refused refusal => exact ⟨_, refusal, same⟩
    | ran asked accepted => exact absurd diverged accepted.alive
    | bound | defaults | reset => cases isRun
  · exact books.phase.1
  · exact books.phase.2
  · rw [books.parameter]
    unfold default?
    rw [tracks.law]
  · obtain ⟨i, hi⟩ := List.getElem?_of_mem hp
    rw [← tracks.law] at distinct
    have known : (s.parameterPlace? p.symbol.name).isSome = true :=
      List.findIdx?_isSome.trans (List.any_eq_true.mpr ⟨p.symbol, List.mem_map_of_mem hp, beq_self_eq_true _⟩)
    -- the first parameter of that name is this one, because names are distinct
    obtain ⟨j, place⟩ := Option.isSome_iff_exists.mp known
    obtain ⟨inside, named, -⟩ := List.findIdx?_eq_some_iff_getElem.mp place
    rw [List.length_map] at inside
    rw [List.getElem_map] at named
    obtain rfl : j = i := eq_of_name distinct (List.getElem?_eq_getElem inside) hi (eq_of_beq named)
    refine ⟨_, registerOf_parameter distinct hi time, ?_⟩
    rw [register _ j place, tracks.compiled.layout]

end

/-- A parameter is set, two samples are produced, and a call is refused. -/
theorem accounted_cubicDischarge :
    ∃ law s₀, UpdateLaw.ofSystem cubicDischarge 1 = .ok law ∧ ofLaw law ⟨1, 1, 2, 1⟩ = .ok s₀ ∧
      (s₀.record trial).map (fun e => (e.samples, e.binding? "gain", e.error?)) =
        [(0, none, some (.unknownParameter "pain")), (2, none, none), (0, some 3, none)] ∧
      Accounted s₀ (s₀.after trial) (s₀.record trial) := by
  have record : ((UpdateLaw.ofSystem cubicDischarge 1).toOption.bind fun law =>
      (ofLaw law ⟨1, 1, 2, 1⟩).toOption.map fun s₀ => (s₀.law.parameters.map (·.symbol.name),
        (s₀.record trial).map fun e => (e.samples, e.binding? "gain", e.error?))) =
        some (["gain"], [(0, none, some (.unknownParameter "pain")), (2, none, none), (0, some 3, none)]) := by
    decide +kernel
  cases solved : UpdateLaw.ofSystem cubicDischarge 1 with
  | error e => rw [solved] at record; cases record
  | ok law =>
    rw [solved] at record
    cases built : ofLaw law ⟨1, 1, 2, 1⟩ with
    | error e => simp only [Except.toOption, built, Option.bind_some] at record; cases record
    | ok s₀ =>
      simp only [Except.toOption, built, Option.bind_some, Option.map_some, Option.some.injEq, Prod.mk.injEq] at record
      obtain ⟨names, record⟩ := record
      exact ⟨law, s₀, rfl, built, record,
        accounted_after (.ofLaw solved built) (by rw [names]; exact List.nodup_singleton _) trial⟩

end Simulation

end AnalogCircuit
