import AnalogCircuit.Expr.Traverse
/-!
# Induction on expressions

Expressions hold lists of expressions. The principle below hands an induction the hypothesis for every
member of such a list, so that no proof has to go through the list on its own. The nodes of an expression are itself
and the nodes of its parts, so what holds everywhere in an expression holds of it and everywhere in its parts.
-/

namespace AnalogCircuit.Expr

variable {α : Type}

/-- Induction on an expression, with the hypothesis for every member of a list of parts. -/
@[elab_as_elim, induction_eliminator]
theorem ind {motive : Expr α → Prop} (num : ∀ v, motive (num v)) (sym : ∀ s, motive (sym s))
    (sum : ∀ ts, (∀ t ∈ ts, motive t) → motive (sum ts))
    (product : ∀ fs, (∀ f ∈ fs, motive f) → motive (product fs))
    (power : ∀ b e, motive b → motive e → motive (power b e))
    (call : ∀ f args, (∀ a ∈ args, motive a) → motive (call f args))
    (apply : ∀ f args, (∀ a ∈ args, motive a) → motive (apply f args))
    (compare : ∀ c a b, motive a → motive b → motive (compare c a b))
    (select : ∀ c a b, motive c → motive a → motive b → motive (select c a b))
    (derivative : ∀ x t, motive x → motive (derivative x t))
    (integral : ∀ x t, motive x → motive (integral x t)) (e : Expr α) : motive e :=
  @Expr.rec α motive (fun es => ∀ e ∈ es, motive e)
    num sym sum product power call apply compare select derivative integral
    (fun _ h => absurd h List.not_mem_nil)
    (fun _ _ head tail e h => by
      rcases List.mem_cons.mp h with rfl | h
      · exact head
      · exact tail e h) e

/-- Induction that only asks for the hypothesis of the parts, whatever the kind of node. -/
theorem children_ind {P : Expr α → Prop} (step : ∀ e, (∀ x ∈ e.children, P x) → P e) (e : Expr α) : P e := by
  induction e with
  | num v => exact step _ (by simp [children])
  | sym s => exact step _ (by simp [children])
  | sum _ ih | product _ ih | call _ _ ih | apply _ _ ih => exact step _ ih
  | power a b ha hb | compare _ a b ha hb => exact step _ (by simp [children, ha, hb])
  | select c a b hc ha hb => exact step _ (by simp [children, hc, ha, hb])
  | derivative x _ ih | integral x _ ih => exact step _ (List.forall_mem_singleton.mpr ih)

theorem size_le_of_mem {e : Expr α} {es : List (Expr α)} (h : e ∈ es) : e.size ≤ sizeList es := by
  induction es with
  | nil => cases h
  | cons e' es ih =>
    rw [sizeList]
    rcases List.mem_cons.mp h with rfl | h
    · omega
    · have := ih h
      omega

/-- A part is smaller than the whole. -/
theorem size_lt_of_mem_children {x e : Expr α} (h : x ∈ e.children) : x.size < e.size := by
  cases e with
  | num v | sym s => cases h
  | sum es | product es | call _ es | apply _ es =>
    have : x.size ≤ sizeList es := size_le_of_mem h
    simp only [size]
    omega
  | power a b | compare _ a b | select c a b | derivative a _ | integral a _ =>
    simp only [children, List.mem_cons, List.not_mem_nil, or_false] at h
    simp only [size]
    grind [size_pos]

/-! ## Nodes -/

theorem nodesList_eq_flatMap (es : List (Expr α)) : nodesList es = es.flatMap nodes := by
  induction es with
  | nil => rfl
  | cons e es ih => rw [nodesList, List.flatMap_cons, ih]

theorem nodes_eq (e : Expr α) : e.nodes = e :: e.children.flatMap nodes := by
  cases e <;> simp [nodes, children, nodesList_eq_flatMap]

/-- All nodes of the expression have the property. -/
def Everywhere (P : Expr α → Prop) (e : Expr α) : Prop := ∀ n ∈ e.nodes, P n

theorem everywhere_iff {P : Expr α → Prop} {e : Expr α} :
    Everywhere P e ↔ P e ∧ ∀ x ∈ e.children, Everywhere P x := by
  unfold Everywhere
  rw [nodes_eq, List.forall_mem_cons, List.forall_mem_flatMap]

end AnalogCircuit.Expr
