import AnalogCircuit.Proofs.NewtonLoop
/-!
# Corrections are Newton steps

Every correction that a loop makes is the step of Newton's method for the residuals of the iteration: the Jacobian
times the change of the estimates gives the residuals, both evaluated at the estimates before. A loop begins with the
previous values and ends when its budget is spent, when the corrections are small, or when the Jacobian cannot be
factored; then the estimates stay as they are.
-/

namespace AnalogCircuit

open Expr

variable {α : Type}

/-! ## Writing the estimates -/

namespace Registers

variable [Scalar α] {β : Type} {bs : List β}

omit [Scalar α] in
@[simp] theorem size_foldl_write (register : β → Reg) (content : Registers α → β → α) (bs : List β) (rs : Registers α) :
    (bs.foldl (fun rs b => rs.write (register b) (content rs b)) rs).size = rs.size := by
  induction bs generalizing rs with
  | nil => rfl
  | cons b bs ih => exact (ih _).trans (size_write ..)

/-- Writing some registers, one after the other, leaves the others as they are. -/
theorem value_foldl_write (register : β → Reg) (content : Registers α → β → α) {r : Reg}
    (other : r ∉ bs.map register) (rs : Registers α) :
    (bs.foldl (fun rs b => rs.write (register b) (content rs b)) rs).value r = rs.value r := by
  induction bs generalizing rs with
  | nil => rfl
  | cons b bs ih =>
    obtain ⟨ne, other⟩ := List.ne_and_not_mem_of_not_mem_cons other
    exact (ih other _).trans (value_write_of_ne ne.symm _)

end Registers

/-- Equal sizes give equal factors. -/
theorem Factors.factor_congr [Scalar α] {m m' : Nat} (h : m = m') (entries : List α) :
    (factor entries : Factors α m × Option Error).2 = (factor entries : Factors α m' × Option Error).2 ∧
      ∀ b, (factor entries : Factors α m × Option Error).1.solve b =
        (factor entries : Factors α m' × Option Error).1.solve b := by
  subst h
  exact ⟨rfl, fun _ => rfl⟩

namespace Loop

variable [Scalar α] {l : Loop} {rs : Registers α}

omit [Scalar α] in
theorem map_zip_correction {xs : List (Reg × Reg)} {ds : List α} (length : xs.length ≤ ds.length) :
    (xs.zip ds).map (·.1.1) = xs.map (·.1) :=
  List.map_map.symm.trans (congrArg (List.map (·.1)) (List.map_fst_zip length))

theorem value_begin_of_not_mem {r : Reg} (other : r ∉ l.unknowns.map (·.1)) :
    (l.begin rs).value r = rs.value r :=
  Registers.value_foldl_write (fun x : Reg × Reg => x.1) (fun rs x => rs.value x.2) other rs

/-- A loop begins with the previous values, if it does not overwrite them. -/
theorem value_begin (size : ∀ x ∈ l.unknowns, x.1 < rs.size)
    (apart : ∀ x ∈ l.unknowns, x.2 ∉ l.unknowns.map (·.1))
    (same : ∀ x ∈ l.unknowns, ∀ y ∈ l.unknowns, x.1 = y.1 → x = y) :
    ∀ x ∈ l.unknowns, (l.begin rs).value x.1 = rs.value x.2 := by
  have fold (xs : List (Reg × Reg)) (sub : ∀ x ∈ xs, x ∈ l.unknowns) (rs' : Registers α)
      (length : rs'.size = rs.size) (before : ∀ x ∈ l.unknowns, rs'.value x.2 = rs.value x.2) :
      ∀ x ∈ xs, (xs.foldl (fun rs x => rs.write x.1 (rs.value x.2)) rs').value x.1 = rs.value x.2 := by
    induction xs generalizing rs' with
    | nil => exact fun _ h => absurd h List.not_mem_nil
    | cons y xs ih =>
      obtain ⟨hy, sub⟩ := List.forall_mem_cons.mp sub
      have later := ih sub (rs'.write y.1 (rs'.value y.2)) ((Registers.size_write ..).trans length) fun x hx =>
        (Registers.value_write_of_ne (fun h => apart x hx (List.mem_map.mpr ⟨y, hy, h⟩)) _).trans (before x hx)
      refine List.forall_mem_cons.mpr ⟨?_, later⟩
      by_cases again : y.1 ∈ xs.map (·.1)
      · obtain ⟨z, hz, first⟩ := List.mem_map.mp again
        obtain rfl : z = y := same z (sub z hz) y hy first
        exact later z hz
      · refine (Registers.value_foldl_write _ (fun rs (x : Reg × Reg) => rs.value x.2) again _).trans ?_
        exact (Registers.value_write_self (length ▸ size y hy) _).trans (before y hy)
  exact fold l.unknowns (fun _ h => h) rs rfl fun _ _ => rfl

theorem value_correct_of_not_mem {r : Reg} {ds : List α} (length : l.unknowns.length = ds.length)
    (other : r ∉ l.unknowns.map (·.1)) : (l.correct ds rs).value r = rs.value r :=
  Registers.value_foldl_write (fun b : (Reg × Reg) × α => b.1.1) (fun rs b => rs.value b.1.1 - b.2)
    (by rwa [map_zip_correction length.le]) rs

/-- Corrections decrease the estimates, if the unknowns have different registers. -/
theorem map_value_correct {ds : List α} (length : l.unknowns.length = ds.length)
    (size : ∀ x ∈ l.unknowns, x.1 < rs.size) (distinct : (l.unknowns.map (·.1)).Nodup) :
    (l.unknowns.map fun x => (l.correct ds rs).value x.1) =
      (l.unknowns.map fun x => rs.value x.1).zipWith (· - ·) ds := by
  unfold correct
  generalize l.unknowns = xs at length size distinct
  induction xs generalizing ds rs with
  | nil => rfl
  | cons x xs ih =>
    obtain ⟨d, ds, rfl⟩ := List.exists_cons_of_length_pos (Nat.lt_of_lt_of_eq (Nat.succ_pos _) length)
    have length := Nat.succ.inj length
    obtain ⟨hx, size⟩ := List.forall_mem_cons.mp size
    obtain ⟨other, distinct⟩ := List.nodup_cons.mp distinct
    have rest := @ih (rs.write x.1 (rs.value x.1 - d)) ds length
      (fun y hy => Nat.lt_of_lt_of_eq (size y hy) (Registers.size_write ..).symm) distinct
    have before : (xs.map fun y => (rs.write x.1 (rs.value x.1 - d)).value y.1) = xs.map fun y => rs.value y.1 :=
      List.map_congr_left fun y hy =>
        Registers.value_write_of_ne (fun same => other (List.mem_map.mpr ⟨y, hy, same.symm⟩)) _
    have kept : ((xs.zip ds).foldl (fun rs b => rs.write b.1.1 (rs.value b.1.1 - b.2))
        (rs.write x.1 (rs.value x.1 - d))).value x.1 = rs.value x.1 - d :=
      (Registers.value_foldl_write _ _ (by rwa [map_zip_correction length.le]) _).trans
        (Registers.value_write_self hx _)
    rw [before] at rest
    exact congrArg₂ List.cons kept rest

end Loop

namespace Program

open Emission Emit

section

variable [Scalar α] {law : UpdateLaw α} {n : NewtonIteration α} {rs rs' : Registers α}

/-! ## Steps -/

/-- The registers of an unknown and of its previous value. -/
def registersOf (law : UpdateLaw α) (u : Symbol) : Reg × Reg :=
  ((layoutOf law).unknown ((placeOf? law u).getD 0), (layoutOf law).previousUnknown ((placeOf? law u).getD 0))

/-- The estimates of the iterated unknowns. -/
def estimates (law : UpdateLaw α) (n : NewtonIteration α) (rs : Registers α) : List α :=
  n.unknowns.map fun u => rs.value (registersOf law u).1

/-- By how much the estimates decrease. -/
def changes (law : UpdateLaw α) (n : NewtonIteration α) (rs rs' : Registers α) : List α :=
  (estimates law n rs).zipWith (· - ·) (estimates law n rs')

/-- The size of the largest of some changes. -/
def largest (ds : List α) : α := ds.foldl (fun m d => Scalar.max m (Scalar.abs d)) 0

/-- No fixed register has changed. -/
def SameFixed (law : UpdateLaw α) (rs rs' : Registers α) : Prop :=
  ∀ r < (layoutOf law).size, rs'.value r = rs.value r

/-- No fixed register has changed but those of iterated unknowns. -/
def SameBesides (law : UpdateLaw α) (n : NewtonIteration α) (rs rs' : Registers α) : Prop :=
  ∀ r < (layoutOf law).size, r ∉ (n.unknowns.map fun u => (registersOf law u).1) → rs'.value r = rs.value r

/-- The Jacobian, given by its rows, can be factored. -/
def Factorable (n : NewtonIteration α) (jacobian : List (List α)) : Prop :=
  (Factors.factor jacobian.flatten : Factors α n.unknowns.length × Option Error).2 = none

instance (n : NewtonIteration α) (jacobian : List (List α)) : Decidable (Factorable n jacobian) :=
  inferInstanceAs (Decidable (_ = _))

end

section

variable [ExactScalar α]

/-- The step of Newton's method: the Jacobian times the change of the estimates is the residuals, where Jacobian and
residuals are evaluated at the estimates before. -/
structure NewtonStep (law : UpdateLaw α) (n : NewtonIteration α) (rs rs' : Registers α) : Prop where
  others : SameBesides law n rs rs'
  solves : ∃ residuals jacobian, n.Evaluates (symbols law rs) residuals jacobian ∧ Factorable n jacobian ∧
    Factors.applied jacobian (changes law n rs rs') = residuals

/-- What a loop makes of the registers with a budget of corrections. -/
inductive Corrected (law : UpdateLaw α) (n : NewtonIteration α) (tolerance : α) :
    Nat → Registers α → Registers α → Prop where
  | spent {rs rs' : Registers α} (same : SameFixed law rs rs') : Corrected law n tolerance 0 rs rs'
  | singular {budget : Nat} {rs rs' : Registers α} {residuals : List α} {jacobian : List (List α)}
      (evaluates : n.Evaluates (symbols law rs) residuals jacobian) (singular : ¬Factorable n jacobian)
      (same : SameFixed law rs rs') : Corrected law n tolerance (budget + 1) rs rs'
  | close {budget : Nat} {rs rs' : Registers α} (step : NewtonStep law n rs rs')
      (small : Scalar.lt (largest (changes law n rs rs')) tolerance = true) :
      Corrected law n tolerance (budget + 1) rs rs'
  | again {budget : Nat} {rs rs' rs'' : Registers α} (step : NewtonStep law n rs rs')
      (large : Scalar.lt (largest (changes law n rs rs')) tolerance = false)
      (rest : Corrected law n tolerance budget rs' rs'') : Corrected law n tolerance (budget + 1) rs rs''

end

/-! ## Registers of unknowns -/

section

variable {law : UpdateLaw α} {n : NewtonIteration α}

theorem iteratedUnknowns_eq (known : ∀ u ∈ n.unknowns, u ∈ law.unknowns) :
    iteratedUnknowns law n = n.unknowns.map (registersOf law) := by
  unfold iteratedUnknowns
  generalize n.unknowns = us at known
  induction us with
  | nil => rfl
  | cons u us ih =>
    obtain ⟨hu, known⟩ := List.forall_mem_cons.mp known
    obtain ⟨i, hi⟩ := exists_of_placeOf? hu
    rw [List.filterMap_cons_some hi, List.map_cons, List.map_cons, ih known, registersOf, hi]
    rfl

/-- Different unknowns have different registers. -/
theorem eq_of_registersOf {u u' : Symbol} (hu : u ∈ law.unknowns) (hu' : u' ∈ law.unknowns)
    (same : (registersOf law u).1 = (registersOf law u').1) : u = u' := by
  obtain ⟨i, hi⟩ := exists_of_placeOf? hu
  obtain ⟨j, hj⟩ := exists_of_placeOf? hu'
  unfold registersOf at same
  rw [hi, hj] at same
  obtain rfl : i = j := Nat.add_left_cancel same
  exact Option.some.inj ((getElem?_of_placeOf? hi).symm.trans (getElem?_of_placeOf? hj))

/-- An unknown has a register behind that of every previous value. -/
theorem registersOf_lt {u : Symbol} (hu : u ∈ law.unknowns) :
    (registersOf law u).1 < (layoutOf law).size ∧ (registersOf law u).2 < (layoutOf law).unknown 0 := by
  obtain ⟨i, hi⟩ := exists_of_placeOf? hu
  unfold registersOf
  rw [hi]
  have inside := lt_of_placeOf? hi
  refine ⟨unknown_lt_size inside, ?_⟩
  change i < law.unknowns.length + 2 * law.inputs.length + law.parameters.length + 1 + 0
  omega

/-- The iteration is square: it has a residual for every unknown, and its unknowns are unknowns of the law. -/
structure Proper (law : UpdateLaw α) (n : NewtonIteration α) : Prop where
  square : n.residuals.length = n.unknowns.length
  known : ∀ u ∈ n.unknowns, u ∈ law.unknowns

end

/-! ## Passes -/

section

variable [ExactScalar α] {law : UpdateLaw α} {n : NewtonIteration α} {s : Emission α} {l : Loop} {rs : Registers α}

/-- If the Jacobian can be factored, the iterated unknowns are different: two columns for one unknown would be
alike. -/
theorem nodup_of_factorable [LinearOrder α] [OrderedScalar α] {ℓ : Symbol → Option α}
    (square : n.residuals.length = n.unknowns.length) (factorable : Factorable n (n.jacobianValues ℓ)) :
    n.unknowns.Nodup := by
  refine List.nodup_iff_getElem?_ne_getElem?.mpr fun j k lt hk same => Nat.ne_of_lt lt ?_
  refine Factors.eq_of_columns (fun row => NewtonIteration.length_of_mem_jacobianValues)
    ((List.length_map _).trans square) factorable (lt.trans hk) hk fun row hrow => ?_
  obtain ⟨r, -, rfl⟩ := List.mem_map.mp hrow
  rw [List.getElem?_map, List.getElem?_map, same]

/-- Taking changes away twice leads back to them. -/
theorem zipWith_sub_sub {xs ds : List α} (length : xs.length = ds.length) :
    xs.zipWith (· - ·) (xs.zipWith (· - ·) ds) = ds := by
  induction xs generalizing ds with
  | nil => exact (List.eq_nil_of_length_eq_zero length.symm).symm
  | cons x xs ih =>
    obtain ⟨d, ds, rfl⟩ := List.exists_cons_of_length_pos (Nat.lt_of_lt_of_eq (Nat.succ_pos _) length)
    rw [List.zipWith_cons_cons, List.zipWith_cons_cons, ih (Nat.succ.inj length), sub_sub_cancel]

namespace LoopComputes

theorem unknowns_eq (h : LoopComputes law n s l) (proper : Proper law n) :
    l.unknowns = n.unknowns.map (registersOf law) := h.unknowns.trans (iteratedUnknowns_eq proper.known)

theorem size (h : LoopComputes law n s l) (proper : Proper law n) : l.size = n.unknowns.length := by
  unfold Loop.size
  rw [h.unknowns_eq proper, List.length_map]

/-- The registers that the loop iterates are those of the iterated unknowns. -/
theorem registers_eq (h : LoopComputes law n s l) (proper : Proper law n) :
    l.unknowns.map (·.1) = n.unknowns.map fun u => (registersOf law u).1 := by
  rw [h.unknowns_eq proper, List.map_map]
  rfl

theorem lt_size (h : LoopComputes law n s l) (size : s.next ≤ rs.size) {x : Reg × Reg} (hx : x ∈ l.unknowns) :
    x.1 < rs.size := by
  have fixed := iteratedRegisters_lt law n x.1 (List.mem_map_of_mem (h.unknowns ▸ hx))
  exact Nat.lt_of_lt_of_le fixed (h.sound.first_le.trans size)

theorem evaluates (h : LoopComputes law n s l) :
    n.Evaluates (symbols law rs) (n.residualValues (symbols law rs)) (n.jacobianValues (symbols law rs)) :=
  NewtonIteration.evaluates (fun _ hr => h.hasValue (List.mem_append_left _ hr))
    fun _ hx => h.hasValue (List.mem_append_right _ (List.mem_map_of_mem hx))

/-! ### First estimates -/

/-- The instructions in front of the loop write no fixed register. -/
theorem value_front (h : LoopComputes law n s l) {r : Reg} (fixed : r < (layoutOf law).size) :
    (executeAll s.pending rs).value r = rs.value r :=
  value_executeAll_of_ne (fun i hi => Nat.ne_of_gt (Nat.lt_of_lt_of_le fixed (h.front i hi))) rs

/-- The loop begins with the previous values. -/
theorem value_begin (h : LoopComputes law n s l) (proper : Proper law n) (size : s.next ≤ rs.size) {u : Symbol}
    (hu : u ∈ n.unknowns) : (l.begin rs).value (registersOf law u).1 = rs.value (registersOf law u).2 := by
  have known {x : Reg × Reg} (hx : x ∈ l.unknowns) : ∃ u ∈ law.unknowns, registersOf law u = x := by
    rw [h.unknowns_eq proper] at hx
    obtain ⟨u, hu, same⟩ := List.mem_map.mp hx
    exact ⟨u, proper.known u hu, same⟩
  refine Loop.value_begin (fun x hx => h.lt_size size hx) (fun x hx mem => ?_) (fun x hx y hy same => ?_)
    (registersOf law u) (h.unknowns_eq proper ▸ List.mem_map_of_mem hu)
  · -- registers of previous values stand in front of those of unknowns
    obtain ⟨u, hu, rfl⟩ := known hx
    obtain ⟨y, hy, same⟩ := List.mem_map.mp mem
    obtain ⟨u', -, rfl⟩ := known hy
    refine absurd (registersOf_lt hu).2 (Nat.not_lt_of_le ?_)
    rw [← same]
    exact Nat.add_le_add_left (Nat.zero_le _) _
  · obtain ⟨u, hu, rfl⟩ := known hx
    obtain ⟨u', hu', rfl⟩ := known hy
    rw [eq_of_registersOf hu hu' same]

/-- When the instructions in front of it have been executed, the loop can begin. -/
theorem running_begin (h : LoopComputes law n s l) (size : s.next ≤ rs.size)
    (constants : ∀ c ∈ s.constants, rs.value c.1 = c.2) : Running s (l.begin (executeAll s.pending rs)) := by
  have large : s.next ≤ (executeAll s.pending rs).size := size.trans (size_executeAll ..).ge
  refine h.running_change ⟨large, ?_⟩ (Registers.size_foldl_write _ _ _ _) fun r => Loop.value_begin_of_not_mem
  exact h.sound.obeyed_executeAll size constants fun i hi => absurd hi List.not_mem_nil

/-! ### Corrections -/

/-- A pass finds no corrections if the Jacobian cannot be factored. -/
theorem corrections?_eq_none (h : LoopComputes law n s l) (proper : Proper law n) (running : Running s rs)
    (singular : ¬Factorable n (n.jacobianValues (symbols law rs))) :
    l.corrections? (executeAll l.body rs) = none := by
  have entries := h.entries_pass (h.size proper) proper.square running
  cases found : (Factors.factor (l.entries (executeAll l.body rs)) : Factors α l.size × Option Error).2 with
  | some e => exact Loop.corrections?_eq_none found
  | none =>
    rw [entries, (Factors.factor_congr (h.size proper) _).1] at found
    exact absurd found singular

/-- The changes of the estimates are the corrections. -/
theorem changes_correct (h : LoopComputes law n s l) (proper : Proper law n) (running : Running s rs)
    {ds : List α} (length : ds.length = n.unknowns.length) (distinct : n.unknowns.Nodup) :
    changes law n rs (l.correct ds (executeAll l.body rs)) = ds := by
  have registers : (l.unknowns.map (·.1)).Nodup := by
    rw [h.registers_eq proper]
    exact distinct.map_on fun u hu u' hu' same =>
      eq_of_registersOf (proper.known u hu) (proper.known u' hu') same
  have estimates_eq (rs : Registers α) : estimates law n rs = l.unknowns.map fun x => rs.value x.1 := by
    rw [h.unknowns_eq proper, List.map_map]
    rfl
  have before : estimates law n (executeAll l.body rs) = estimates law n rs := by
    refine List.map_congr_left fun u hu => h.value_pass (registersOf_lt (proper.known u hu)).1
  have after : estimates law n (l.correct ds (executeAll l.body rs)) =
      (estimates law n (executeAll l.body rs)).zipWith (· - ·) ds := by
    rw [estimates_eq, estimates_eq]
    exact Loop.map_value_correct ((h.size proper).trans length.symm)
      (fun x hx => h.lt_size (h.running_pass running).size hx) registers
  unfold changes
  rw [after, before]
  exact zipWith_sub_sub ((List.length_map _).trans length.symm)

/-- The loop goes on after correcting. -/
theorem running_correct (h : LoopComputes law n s l) (proper : Proper law n) (running : Running s rs) {ds : List α}
    (length : ds.length = n.unknowns.length) : Running s (l.correct ds (executeAll l.body rs)) :=
  h.running_change (h.running_pass running) (Registers.size_foldl_write _ _ _ _) fun _ other =>
    Loop.value_correct_of_not_mem ((h.size proper).trans length.symm) other

theorem largest_eq (h : LoopComputes law n s l) (proper : Proper law n) {ds : List α}
    (length : ds.length = n.unknowns.length) : l.largest ds = largest ds := by
  have second : (l.unknowns.zip ds).map (·.2) = ds :=
    List.map_snd_zip (length.trans (h.size proper).symm).le
  unfold Loop.largest
  rw [← second]
  unfold largest
  rw [List.foldl_map, second]

variable [LinearOrder α] [OrderedScalar α]

/-- If the Jacobian can be factored, a pass finds the solution of the linear equations of Newton's method. -/
theorem corrections?_eq_some (h : LoopComputes law n s l) (proper : Proper law n) (running : Running s rs)
    (factorable : Factorable n (n.jacobianValues (symbols law rs))) :
    ∃ ds, l.corrections? (executeAll l.body rs) = some ds ∧ ds.length = n.unknowns.length ∧
      Factors.applied (n.jacobianValues (symbols law rs)) ds = n.residualValues (symbols law rs) := by
  have entries := h.entries_pass (h.size proper) proper.square running
  have congr := Factors.factor_congr (h.size proper) (n.jacobianValues (symbols law rs)).flatten
  have found : (Factors.factor (l.entries (executeAll l.body rs)) : Factors α l.size × Option Error).2 = none := by
    rw [entries, congr.1]
    exact factorable
  refine ⟨_, Loop.corrections?_eq_some found, (Factors.length_solve _ _).trans (h.size proper), ?_⟩
  rw [entries, congr.2, h.residuals_pass running]
  exact Factors.applied_solve (fun row => NewtonIteration.length_of_mem_jacobianValues)
    ((List.length_map _).trans proper.square) ((List.length_map _).trans proper.square) factorable

/-- Correcting is a step of Newton's method. -/
theorem newtonStep_correct (h : LoopComputes law n s l) (proper : Proper law n) (running : Running s rs)
    (factorable : Factorable n (n.jacobianValues (symbols law rs))) {ds : List α}
    (length : ds.length = n.unknowns.length)
    (solves : Factors.applied (n.jacobianValues (symbols law rs)) ds = n.residualValues (symbols law rs)) :
    NewtonStep law n rs (l.correct ds (executeAll l.body rs)) where
  others r fixed other := by
    rw [← h.registers_eq proper] at other
    rw [Loop.value_correct_of_not_mem ((h.size proper).trans length.symm) other]
    exact h.value_pass fixed
  solves := ⟨_, _, h.evaluates, factorable, by
    rwa [h.changes_correct proper running length (nodup_of_factorable proper.square factorable)]⟩

/-! ## Runs -/

/-- A loop corrects the estimates as Newton's method does, until its budget is spent, the corrections are small or
the Jacobian cannot be factored. -/
theorem corrected_iterate (h : LoopComputes law n s l) (proper : Proper law n) (tolerance : α) (budget : Nat)
    (running : Running s rs) : Corrected law n tolerance budget rs (l.iterate tolerance budget rs) := by
  induction budget generalizing rs with
  | zero => exact .spent fun _ _ => rfl
  | succ budget ih =>
    rw [Loop.iterate]
    dsimp only
    by_cases factorable : Factorable n (n.jacobianValues (symbols law rs))
    · obtain ⟨ds, found, length, solves⟩ := h.corrections?_eq_some proper running factorable
      have step := h.newtonStep_correct proper running factorable length solves
      have changes := h.changes_correct proper running length (nodup_of_factorable proper.square factorable)
      rw [found]
      dsimp only
      rw [h.largest_eq proper length]
      split
      · next small => exact .close step (by rwa [changes])
      · next large =>
        refine .again step ?_ (ih (h.running_correct proper running length))
        rw [changes]
        exact Bool.not_eq_true _ ▸ large
    · rw [h.corrections?_eq_none proper running factorable]
      exact .singular h.evaluates factorable fun r fixed => h.value_pass fixed

end LoopComputes

end

end Program

end AnalogCircuit
