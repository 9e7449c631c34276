import AnalogCircuit.Expr.Order
/-!
# Sums

The canonical sum of a list of terms: nested sums are flattened, constants are added up, and terms that
differ only in their coefficient are collected. A coefficient is a leading constant factor.
-/

namespace AnalogCircuit.Expr

variable {α : Type} [Scalar α]

/-- A constant; zero is kept without a sign, so that equal numbers are equal terms. -/
def mkNum (v : α) : Expr α := num (if Scalar.isZero v then 0 else v)

/-! ## Coefficients -/

/-- The product of factors that are known to be canonical together: a lone factor stands for itself. -/
def ofFactors : List (Expr α) → Expr α
  | [f] => f
  | fs => product fs

/-- Splits off the leading coefficient: `3*x*y` is `3` and `x*y`. -/
def splitCoefficient : Expr α → α × Expr α
  | product (num c :: fs) => (c, ofFactors fs)
  | num c => (c, one)
  | e => (1, e)

/-- Puts a coefficient in front of a term that has none. -/
def scale (c : α) (rest : Expr α) : Expr α :=
  if Scalar.isOne c then rest
  else match rest with
    | num v => mkNum (c * v)
    | product fs => product (mkNum c :: fs)
    | e => product [mkNum c, e]

/-- What a term with a negative coefficient subtracts: `-3*x` subtracts `3*x`. -/
def subtrahend? : Expr α → Option (Expr α)
  | num c => if Scalar.lt c 0 then some (scale (-c) one) else none
  | product (num c :: fs) => if Scalar.lt c 0 then some (scale (-c) (ofFactors fs)) else none
  | _ => none

theorem size_scale_ofFactors (k : α) (fs : List (Expr α)) :
    (scale k (ofFactors fs)).size ≤ 2 + sizeList fs := by
  have lone (f : Expr α) : (scale k f).size ≤ 2 + f.size := by
    unfold scale
    split
    · omega
    · split <;> simp only [mkNum, size, sizeList] <;> omega
  rcases fs with _ | ⟨f, _ | ⟨g, fs⟩⟩
  · unfold scale ofFactors
    split <;> simp only [mkNum, size, sizeList] <;> omega
  · simpa only [ofFactors, sizeList, Nat.add_zero] using lone f
  · unfold scale ofFactors
    split <;> simp only [mkNum, size, sizeList] <;> omega

/-- Only a term with a negative coefficient subtracts something. -/
theorem exists_of_subtrahend? {e r : Expr α} (h : e.subtrahend? = some r) : ∃ c, Scalar.lt c 0 = true ∧
    (e = num c ∧ r = scale (-c) one ∨ ∃ fs, e = product (num c :: fs) ∧ r = scale (-c) (ofFactors fs)) := by
  unfold subtrahend? at h
  split at h
  · next c =>
    split at h
    · next negative => exact ⟨c, negative, .inl ⟨rfl, (Option.some.inj h).symm⟩⟩
    · cases h
  · next c fs =>
    split at h
    · next negative => exact ⟨c, negative, .inr ⟨fs, rfl, (Option.some.inj h).symm⟩⟩
    · cases h
  · cases h

/-- Taking the sign off a term does not make it larger. -/
theorem size_of_subtrahend? {e r : Expr α} (h : e.subtrahend? = some r) : r.size ≤ e.size := by
  obtain ⟨c, -, ⟨rfl, rfl⟩ | ⟨fs, rfl, rfl⟩⟩ := exists_of_subtrahend? h
  · unfold scale one
    split <;> simp [mkNum, size]
  · refine Nat.le_trans (size_scale_ofFactors _ _) ?_
    simp only [size, sizeList]; omega

/-! ## Collecting by key -/

/-- Changes the entry of a key in a list sorted by keys; a missing entry is made from the default. -/
def adjust {β : Type} (default : β) (key : Expr α) (f : β → β) :
    List (Expr α × β) → List (Expr α × β)
  | [] => [(key, f default)]
  | (k, v) :: rest =>
    match order key k with
    | .lt => (key, f default) :: (k, v) :: rest
    | .eq => (k, f v) :: rest
    | .gt => (k, v) :: adjust default key f rest

/-- The keys after `adjust` are those before and the new one. -/
theorem mem_adjust {β : Type} {d : β} {key : Expr α} {f : β → β} {l : List (Expr α × β)}
    {p : Expr α × β} (h : p ∈ adjust d key f l) : p.1 = key ∨ ∃ q ∈ l, q.1 = p.1 := by
  induction l with
  | nil => simp only [adjust, List.mem_singleton] at h; exact .inl (by rw [h])
  | cons q rest ih =>
    unfold adjust at h
    split at h
    · rcases List.mem_cons.mp h with h | h
      · exact .inl (by rw [h])
      · exact .inr ⟨p, h, rfl⟩
    · rcases List.mem_cons.mp h with h | h
      · exact .inr ⟨q, List.mem_cons_self, by rw [h]⟩
      · exact .inr ⟨p, List.mem_cons_of_mem _ h, rfl⟩
    · rcases List.mem_cons.mp h with h | h
      · exact .inr ⟨q, List.mem_cons_self, by rw [h]⟩
      · rcases ih h with h | ⟨r, hr, e⟩
        · exact .inl h
        · exact .inr ⟨r, List.mem_cons_of_mem _ hr, e⟩

/-! ## Sums -/

mutual

/-- The terms of an expression, those of nested sums in their place. -/
def terms : Expr α → List (Expr α)
  | sum ts => termsList ts
  | e => [e]

/-- The terms of several expressions. -/
def termsList : List (Expr α) → List (Expr α)
  | [] => []
  | e :: es => e.terms ++ termsList es

end

/-- The terms that are not constant, by what they have beside their coefficient. -/
def collectTerms (ts : List (Expr α)) : List (Expr α × α) :=
  ts.foldl (fun like t =>
    match t with
    | num _ => like
    | t => let (c, rest) := t.splitCoefficient
           adjust 0 rest (c + ·) like) []

/-- The canonical sum of a list of expressions. -/
def mkSum (es : List (Expr α)) : Expr α :=
  let ts := termsList es
  let constant := (ts.filterMap constant?).foldl (· + ·) (0 : α)
  let like := (collectTerms ts).filter fun p => !Scalar.isZero p.2
  let scaled := like.map fun p => scale p.2 p.1
  let out := if Scalar.isZero constant then scaled else scaled ++ [mkNum constant]
  match sort out with
  | [] => zero
  | [e] => e
  | es => sum es

end AnalogCircuit.Expr
