import Mathlib.Order.WellFounded
/-!
# Routines that call each other

A routine is described without being run: it is done, or it makes a call and goes on with the result. Nothing in such
a description says that the calls come to an end; carried out to a bounded depth of calls, a routine may be left
without a result. If every call of every routine lies below its caller in a well-founded order, all routines finish.

The order need only be looked at where calls are answered as they should be. That matters where the result of one call
is the argument of the next: of other answers nothing could be said.
-/

namespace AnalogCircuit

/-- What a routine does, with a result `ρ job` for the call of a job. -/
inductive Routine {ι : Type} (ρ : ι → Type) (β : Type) : Type
  | done (result : β)
  | call (job : ι) (next : ρ job → Routine ρ β)

variable {ι β γ : Type} {ρ : ι → Type}

namespace Routine

/-! ## Sequences -/

/-- One routine and then another that depends on the result. -/
def bind : Routine ρ β → (β → Routine ρ γ) → Routine ρ γ
  | done b, f => f b
  | call job next, f => call job fun r => (next r).bind f

theorem bind_done (t : Routine ρ β) : t.bind done = t := by
  induction t with
  | done b => rfl
  | call job next ih => exact congrArg (call job) (funext ih)

theorem bind_bind {δ : Type} (t : Routine ρ β) (f : β → Routine ρ γ) (g : γ → Routine ρ δ) :
    (t.bind f).bind g = t.bind fun b => (f b).bind g := by
  induction t with
  | done b => rfl
  | call job next ih => exact congrArg (call job) (funext ih)

instance : Monad (Routine ρ) where
  pure := done
  bind := bind

instance : LawfulMonad (Routine ρ) := LawfulMonad.mk' _ bind_done (fun _ _ => rfl) bind_bind

/-- The call of a job, for its result. -/
def ask (job : ι) : Routine ρ (ρ job) := call job done

/-! ## Results and calls -/

/-- The result, where calls are answered; a call without an answer leaves the routine without a result. -/
def run (answer? : (job : ι) → Option (ρ job)) : Routine ρ β → Option β
  | done b => some b
  | call job next => (answer? job).bind fun r => (next r).run answer?

/-- Every call is answered, with the result that is given for it. -/
def given (result : (job : ι) → ρ job) (job : ι) : Option (ρ job) := some (result job)

/-- The calls that are made, up to and including the first one without an answer. -/
def calls (answer? : (job : ι) → Option (ρ job)) : Routine ρ β → List ι
  | done _ => []
  | call job next => job :: ((answer? job).map fun r => (next r).calls answer?).getD []

variable {answer? other? : (job : ι) → Option (ρ job)}

@[simp] theorem run_pure (b : β) : (pure b : Routine ρ β).run answer? = some b := rfl

@[simp] theorem calls_pure (b : β) : (pure b : Routine ρ β).calls answer? = [] := rfl

@[simp] theorem run_ask (job : ι) : (ask job : Routine ρ (ρ job)).run answer? = answer? job :=
  Option.bind_fun_some (answer? job)

@[simp] theorem calls_ask (job : ι) : (ask job : Routine ρ (ρ job)).calls answer? = [job] := by
  unfold ask calls
  cases answer? job <;> rfl

theorem run_bind (t : Routine ρ β) (f : β → Routine ρ γ) :
    (t >>= f).run answer? = (t.run answer?).bind fun b => (f b).run answer? := by
  induction t with
  | done b => rfl
  | call job next ih =>
    change ((answer? job).bind fun r => (next r >>= f).run answer?) = _
    rw [run, Option.bind_assoc]
    exact congrArg _ (funext ih)

/-- The calls of the second routine follow those of the first, if that has a result. -/
theorem calls_bind {t : Routine ρ β} {b : β} (h : t.run answer? = some b) (f : β → Routine ρ γ) :
    (t >>= f).calls answer? = t.calls answer? ++ (f b).calls answer? := by
  induction t with
  | done b' =>
    cases h
    rfl
  | call job next ih =>
    obtain ⟨r, hr, h⟩ := Option.bind_eq_some_iff.mp h
    change job :: ((answer? job).map fun r => (next r >>= f).calls answer?).getD [] = _
    rw [calls, hr, Option.map_some, Option.map_some, Option.getD_some, Option.getD_some, ih r h]
    rfl

/-- A routine for every member of a list has all their results if each has one. -/
theorem run_mapM {f : γ → Routine ρ β} {g : γ → β} (h : ∀ x, (f x).run answer? = some (g x)) (xs : List γ) :
    (xs.mapM f).run answer? = some (xs.map g) := by
  induction xs with
  | nil => rfl
  | cons x xs ih => simp only [List.mapM_cons, run_bind, h, ih, run_pure, Option.bind_some, List.map_cons]

theorem calls_mapM {f : γ → Routine ρ β} {g : γ → β} (h : ∀ x, (f x).run answer? = some (g x)) (xs : List γ) :
    (xs.mapM f).calls answer? = xs.flatMap fun x => (f x).calls answer? := by
  induction xs with
  | nil => rfl
  | cons x xs ih =>
    rw [List.mapM_cons, calls_bind (h x), calls_bind (run_mapM h xs), calls_pure, List.append_nil, ih,
      List.flatMap_cons]

/-! ## More answers -/

/-- With more answers the result stays. -/
theorem run_mono (more : ∀ job r, answer? job = some r → other? job = some r) {t : Routine ρ β} {b : β}
    (h : t.run answer? = some b) : t.run other? = some b := by
  induction t with
  | done b' => exact h
  | call job next ih =>
    obtain ⟨r, hr, h⟩ := Option.bind_eq_some_iff.mp h
    exact Option.bind_eq_some_iff.mpr ⟨r, more job r hr, ih r h⟩

/-- With more answers the calls are made that were made before. -/
theorem calls_mono (more : ∀ job r, answer? job = some r → other? job = some r) (t : Routine ρ β) :
    t.calls answer? ⊆ t.calls other? := by
  induction t with
  | done b => exact List.Subset.refl _
  | call job next ih =>
    rw [calls, calls]
    refine List.cons_subset_cons job ?_
    cases ha : answer? job with
    | none => exact List.nil_subset _
    | some r =>
      rw [more job r ha]
      exact ih r

/-- Only the answers to the calls that are made matter. -/
theorem run_calls_congr {t : Routine ρ β} (same : ∀ job ∈ t.calls answer?, other? job = answer? job) :
    t.run other? = t.run answer? ∧ t.calls other? = t.calls answer? := by
  induction t with
  | done b => exact ⟨rfl, rfl⟩
  | call job next ih =>
    rw [calls] at same
    rw [run, run, calls, calls, same job List.mem_cons_self]
    cases ha : answer? job with
    | none => exact ⟨rfl, rfl⟩
    | some r =>
      obtain ⟨runs, calls⟩ := ih r fun job' h => same job' (List.mem_cons_of_mem job (by rwa [ha]))
      exact ⟨runs, congrArg (job :: ·) calls⟩

end Routine

/-! ## Systems of routines -/

/-- A routine for every job. -/
abbrev Routines (ρ : ι → Type) := (job : ι) → Routine ρ (ρ job)

namespace Routines

open Routine

variable (routines : Routines ρ)

/-- The result of a job if calls go no deeper than `depth`. -/
def within : Nat → (job : ι) → Option (ρ job)
  | 0, _ => none
  | depth + 1, job => (routines job).run (within depth)

/-- One job is called on the way to the result of another, after the calls before have finished. -/
def Calls (caller callee : ι) : Prop := ∃ depth, callee ∈ (routines caller).calls (routines.within depth)

/-- A job has a result as soon as calls may go deep enough. -/
def Finishes (job : ι) (r : ρ job) : Prop := ∃ depth, ∀ deeper ≥ depth, routines.within deeper job = some r

/-- The results are what the routines make of them. -/
def Solved (result : (job : ι) → ρ job) : Prop :=
  ∀ job, (routines job).run (given result) = some (result job)

variable {routines}

theorem within_succ {depth : Nat} {job : ι} {r : ρ job} (h : routines.within depth job = some r) :
    routines.within (depth + 1) job = some r := by
  induction depth generalizing job with
  | zero => cases h
  | succ depth ih => exact run_mono (fun _ _ => ih) h

/-- A result stays where calls may go deeper. -/
theorem within_mono {depth deeper : Nat} (le : depth ≤ deeper) {job : ι} {r : ρ job}
    (h : routines.within depth job = some r) : routines.within deeper job = some r := by
  induction le with
  | refl => exact h
  | step _ ih => exact within_succ ih

/-! ## Results -/

variable {result : (job : ι) → ρ job}

/-- What is found to a bounded depth solves the system. -/
theorem eq_of_within (solved : routines.Solved result) {depth : Nat} {job : ι} {r : ρ job}
    (h : routines.within depth job = some r) : result job = r := by
  induction depth generalizing job with
  | zero => cases h
  | succ depth ih =>
    have h : (routines job).run (given result) = some r :=
      run_mono (fun _ _ h => congrArg some (ih h)) h
    exact Option.some.inj ((solved job).symm.trans h)

/-- What is called is called when all calls are answered. -/
theorem Calls.mem (solved : routines.Solved result) {caller callee : ι} (h : routines.Calls caller callee) :
    callee ∈ (routines caller).calls (given result) := by
  obtain ⟨depth, h⟩ := h
  exact calls_mono (fun _ _ h => congrArg some (eq_of_within solved h)) _ h

/-- Where each of some jobs finishes, there is a depth to which they all do. -/
theorem exists_depth {jobs : List ι} (h : ∀ job ∈ jobs, routines.Finishes job (result job)) :
    ∃ depth, ∀ job ∈ jobs, routines.within depth job = some (result job) := by
  induction jobs with
  | nil => exact ⟨0, fun _ h => absurd h List.not_mem_nil⟩
  | cons job jobs ih =>
    obtain ⟨n, hn⟩ := h job List.mem_cons_self
    obtain ⟨m, hm⟩ := ih fun job' h' => h job' (List.mem_cons_of_mem job h')
    refine ⟨max n m, List.forall_mem_cons.mpr ⟨hn _ (Nat.le_max_left n m), ?_⟩⟩
    exact fun job' h' => within_mono (Nat.le_max_right n m) (hm job' h')

/-- The calls, where they all finish, are those that are made when every call is answered. -/
theorem calls_iff_mem (solved : routines.Solved result) (finish : ∀ job, routines.Finishes job (result job))
    {caller callee : ι} : routines.Calls caller callee ↔ callee ∈ (routines caller).calls (given result) := by
  refine ⟨Calls.mem solved, fun h => ?_⟩
  obtain ⟨depth, same⟩ := exists_depth fun job (_ : job ∈ (routines caller).calls (given result)) => finish job
  exact ⟨depth, (run_calls_congr same).2 ▸ h⟩

/-- Routines whose calls descend have their results, from some depth on. -/
theorem finishes_of_descend {r : ι → ι → Prop} (wf : WellFounded r) (solved : routines.Solved result)
    (descend : ∀ caller, ∀ callee ∈ (routines caller).calls (given result), r callee caller) (job : ι) :
    routines.Finishes job (result job) := by
  induction job using wf.induction with
  | h job ih =>
    obtain ⟨depth, same⟩ := exists_depth fun callee h => ih callee (descend job callee h)
    have finished : routines.within (depth + 1) job = some (result job) :=
      (run_calls_congr same).1.trans (solved job)
    exact ⟨depth + 1, fun _ le => within_mono le finished⟩

end Routines

end AnalogCircuit
