import AnalogCircuit.Proofs.Constructors
/-!
# Values at an instant

Derivatives with respect to the time, and integrals, have no value that could be computed from the symbols in them. At
a single instant they are quantities of their own. An expression has a value at an instant where it has one with these
quantities in the places of the operators of time: no divisor vanishes, and all powers are integral.

This is an interpretation of expressions, so all that canonical constructors do is right at every instant.
-/

namespace AnalogCircuit

/-- The values of all symbols, of all derivatives and of all integrals at a moment. -/
structure Instant (α : Type) where
  symbol : Symbol → α
  derivative : Expr α → Symbol → α
  integral : Expr α → Symbol → α

namespace Instant

section

variable {α : Type}

mutual

/-- The expression with numbers in the places of the operators of time. An exponent stays as it is: a power counts as
integral only if its exponent is written as a number. -/
def freeze (i : Instant α) : Expr α → Expr α
  | .num v => .num v
  | .sym s => .sym s
  | .sum ts => .sum (i.freezeList ts)
  | .product fs => .product (i.freezeList fs)
  | .power b e => .power (i.freeze b) e
  | .call f args => .call f (i.freezeList args)
  | .apply f args => .apply f (i.freezeList args)
  | .compare c a b => .compare c (i.freeze a) (i.freeze b)
  | .select c a b => .select (i.freeze c) (i.freeze a) (i.freeze b)
  | .derivative x t => .num (i.derivative x t)
  | .integral x t => .num (i.integral x t)

/-- Several expressions with numbers in the places of the operators of time. -/
def freezeList (i : Instant α) : List (Expr α) → List (Expr α)
  | [] => []
  | e :: es => i.freeze e :: i.freezeList es

end

theorem freezeList_eq_map (i : Instant α) (es : List (Expr α)) : i.freezeList es = es.map i.freeze := by
  induction es with
  | nil => rfl
  | cons e es ih => rw [freezeList, ih, List.map_cons]

/-- The node is no operator of time. -/
def IsTimeless : Expr α → Prop
  | .derivative _ _ | .integral _ _ => False
  | _ => True

/-- What has no operators of time is left as it is. -/
theorem freeze_eq_self (i : Instant α) {e : Expr α} (h : Expr.Everywhere IsTimeless e) : i.freeze e = e := by
  have list {es : List (Expr α)} (h : ∀ x ∈ es, i.freeze x = x) : i.freezeList es = es := by
    rw [freezeList_eq_map, List.map_congr_left h, List.map_id']
  induction e with
  | num v | sym s => rfl
  | sum es ih | product es ih | call _ es ih | apply _ es ih =>
    rw [freeze, list fun x hx => ih x hx ((Expr.everywhere_iff.mp h).2 x hx)]
  | power b e hb _ =>
    rw [freeze, hb ((Expr.everywhere_iff.mp h).2 b (by simp [Expr.children]))]
  | compare _ a b ha hb =>
    have parts := (Expr.everywhere_iff.mp h).2
    rw [freeze, ha (parts a (by simp [Expr.children])), hb (parts b (by simp [Expr.children]))]
  | select c a b hc ha hb =>
    have parts := (Expr.everywhere_iff.mp h).2
    rw [freeze, hc (parts c (by simp [Expr.children])), ha (parts a (by simp [Expr.children])),
      hb (parts b (by simp [Expr.children]))]
  | derivative x t | integral x t => exact (Expr.everywhere_iff.mp h).1.elim

end

variable {α : Type} [ExactScalar α]

/-- The values of the symbols. -/
def lookup (i : Instant α) (s : Symbol) : Option α := some (i.symbol s)

/-- The value of an expression, where it has one. -/
def value? (i : Instant α) (e : Expr α) : Option α := Expr.defined? i.lookup (i.freeze e)

/-- The sum of the values of some expressions, where all of them have one. -/
def sum? (i : Instant α) (es : List (Expr α)) : Option α := (es.mapM i.value?).map List.sum

/-- Without operators of time it is evaluation. -/
theorem value?_eq_defined? (i : Instant α) {e : Expr α} (h : Expr.Everywhere IsTimeless e) :
    i.value? e = Expr.defined? i.lookup e := by
  unfold value?
  rw [i.freeze_eq_self h]

/-- What expressions stand for at the instant. -/
def interpretation (i : Instant α) : Expr.Interpretation α where
  Regular e := Expr.Regular i.lookup (i.freeze e)
  value e := Expr.value i.lookup (i.freeze e)
  regular_num := Expr.regular_num
  regular_sum {ts} := by rw [freeze, Expr.regular_sum, freezeList_eq_map, List.forall_mem_map]
  regular_product {fs} := by rw [freeze, Expr.regular_product, freezeList_eq_map, List.forall_mem_map]
  regular_power := Expr.regular_power
  value_num := Expr.value_num
  value_sum {ts} h := by
    rw [freeze, freezeList_eq_map, Expr.value_sum (List.forall_mem_map.mpr h), List.map_map]
    rfl
  value_product {fs} h := by
    rw [freeze, freezeList_eq_map, Expr.value_product (List.forall_mem_map.mpr h), List.map_map]
    rfl
  value_power := Expr.value_power

variable {i : Instant α}

theorem value?_eq_some_iff {e : Expr α} {v : α} : i.value? e = some v ↔ i.interpretation.Denotes e v := by
  unfold value?
  rw [Expr.defined?_eq_some_iff, Expr.yields_iff]
  rfl

theorem sum?_eq_some_iff {es : List (Expr α)} {v : α} : i.sum? es = some v ↔
    (∀ e ∈ es, i.interpretation.Regular e) ∧ (es.map i.interpretation.value).sum = v := by
  unfold sum?
  induction es generalizing v with
  | nil => simp
  | cons e es ih =>
    rw [List.mapM_cons]
    constructor
    · intro h
      obtain ⟨vs, all, rfl⟩ := Option.map_eq_some_iff.mp h
      obtain ⟨x, first, all⟩ := Option.bind_eq_some_iff.mp all
      obtain ⟨xs, rest, ⟨⟩⟩ := Option.bind_eq_some_iff.mp all
      obtain ⟨regular, rfl⟩ := value?_eq_some_iff.mp first
      obtain ⟨others, values⟩ := ih.mp (Option.map_eq_some_iff.mpr ⟨xs, rest, rfl⟩)
      exact ⟨List.forall_mem_cons.mpr ⟨regular, others⟩, by rw [List.map_cons, List.sum_cons, List.sum_cons, values]⟩
    · rintro ⟨regular, rfl⟩
      obtain ⟨first, others⟩ := List.forall_mem_cons.mp regular
      obtain ⟨xs, rest, values⟩ := Option.map_eq_some_iff.mp (ih.mpr ⟨others, rfl⟩)
      rw [value?_eq_some_iff.mpr ⟨first, rfl⟩, rest, List.map_cons, List.sum_cons, ← values]
      rfl

theorem regular_sym (s : Symbol) : i.interpretation.Regular (.sym s) := by
  show Expr.Regular i.lookup (.sym s)
  rw [Expr.Regular]
  rfl

end Instant

end AnalogCircuit
