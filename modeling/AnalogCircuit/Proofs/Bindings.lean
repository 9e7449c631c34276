import AnalogCircuit.Proofs.Constructors
import AnalogCircuit.Proofs.Occurrence
/-!
# Replacing several symbols at once

An expression in which symbols are replaced means what it meant before under the valuation that gives each replaced
symbol the value of its image. The images are not looked into again: they may mention symbols that are replaced
themselves, and those keep their own values there. This is why the two valuations are different ones, and why a
replaced symbol is still found in the result where an image mentions it, and nowhere else.
-/

namespace AnalogCircuit.Expr

variable {α : Type}

/-- Gives each bound symbol the value of its image, if it has one, and leaves the values of all others. -/
def Bindings.valuation [ExactScalar α] (bindings : Bindings α) (ℓ : Symbol → Option α) (s : Symbol) : Option α :=
  match bindings.lookup s with
  | some r => defined? ℓ r
  | none => ℓ s

theorem image_of_bound {g : Symbol → Option (Expr α)} {s : Symbol} {r : Expr α} (h : g s = some r) :
    image g s = r := by
  unfold image
  rw [h, Option.getD_some]

theorem image_of_not_bound {g : Symbol → Option (Expr α)} {s : Symbol} (h : g s = none) : image g s = sym s := by
  unfold image
  rw [h, Option.getD_none]

section

variable [Scalar α]

theorem substitute_nil (e : Expr α) : e.substitute [] = e := if_pos rfl

theorem substitute_eq_rewrite (e : Expr α) {bindings : Bindings α} (nonempty : bindings ≠ []) :
    e.substitute bindings = e.rewrite (onSymbols (List.lookup · bindings)) := by
  unfold substitute
  rw [if_neg (by simpa using nonempty)]
  congr

/-- A symbol of the result is one of the expression that is not replaced, or it stands in the image of one that is. -/
theorem contains_of_contains_substitute [Std.LawfulEqCmp (Scalar.order (α := α))] {e : Expr α} {bindings : Bindings α}
    {s : Symbol} (h : (e.substitute bindings).contains s = true) :
    (e.contains s = true ∧ bindings.lookup s = none) ∨
      ∃ t r, e.contains t = true ∧ bindings.lookup t = some r ∧ r.contains s = true := by
  by_cases nonempty : bindings = []
  · subst nonempty
    rw [substitute_nil] at h
    exact .inl ⟨h, rfl⟩
  rw [substitute_eq_rewrite e nonempty] at h
  by_contra absent
  have free (t : Symbol) (ht : e.contains t = true) : (image (List.lookup · bindings) t).contains s = false := by
    rw [← Bool.not_eq_true]
    intro occurs
    apply absent
    cases bound : bindings.lookup t with
    | some r =>
      rw [image_of_bound bound] at occurs
      exact .inr ⟨t, r, ht, bound, occurs⟩
    | none =>
      rw [image_of_not_bound bound] at occurs
      obtain rfl : t = s := eq_of_beq occurs
      exact .inl ⟨ht, bound⟩
  have clean : (rewrite (onSymbols (List.lookup · bindings)) e).contains s = false :=
    dependsOn_rewrite (leafwise_onSymbols _) free onSymbols_operators
  rw [clean] at h
  cases h

end

variable [ExactScalar α] {ℓ : Symbol → Option α}

/-- The image of a symbol yields what the symbol is taken to be. -/
theorem image_yields {bindings : Bindings α} {s : Symbol} {x : α} (h : bindings.valuation ℓ s = some x) :
    Yields ℓ (image (List.lookup · bindings) s) x := by
  unfold Bindings.valuation at h
  cases bound : bindings.lookup s with
  | some r =>
    rw [bound] at h
    rw [image_of_bound bound]
    exact defined?_eq_some_iff.mp h
  | none =>
    rw [bound] at h
    rw [image_of_not_bound bound]
    refine ⟨?_, h⟩
    rw [Regular, show ℓ s = some x from h]
    rfl

theorem substitute_yields {bindings : Bindings α} {e : Expr α} {v : α} (h : Yields (bindings.valuation ℓ) e v) :
    Yields ℓ (e.substitute bindings) v := by
  by_cases nonempty : bindings = []
  · subst nonempty
    rwa [substitute_nil]
  · rw [substitute_eq_rewrite e nonempty, ← h.value_eq]
    exact yields_iff.mpr (rewrite_denotes (fun s x hx => yields_iff.mp (image_yields hx)) h.regular)

/-- Replacing symbols is evaluating with the values of their images, and replaced symbols come from images only. -/
theorem substitute_simultaneous (e : Expr α) (bindings : Bindings α) :
    (∀ (ℓ : Symbol → Option α) (v : α), Yields (bindings.valuation ℓ) e v → Yields ℓ (e.substitute bindings) v) ∧
      ∀ s, (bindings.lookup s).isSome → (e.substitute bindings).contains s = true →
        ∃ t r, e.contains t = true ∧ bindings.lookup t = some r ∧ r.contains s = true := by
  refine ⟨fun ℓ v h => substitute_yields h, fun s replaced occurs => ?_⟩
  rcases contains_of_contains_substitute occurs with ⟨-, kept⟩ | image
  · rw [kept] at replaced
    cases replaced
  · exact image

/-- `if(x < y, x/y, D(x*y, t)) + x*y`, of which only the first branch has a value. -/
def branching : Expr ℚ :=
  mkSum [mkSelect (mkCompare .lt (named "x") (named "y")) (named "x" / named "y")
      (mkDerivative (mkProduct [named "x", named "y"]) .time),
    mkProduct [named "x", named "y"]]

/-- `x` and `y` change places, and `y` grows on the way. -/
def crossing : Bindings ℚ := [(.named "x", named "y"), (.named "y", mkSum [named "x", num 2])]

/-- `x = 3`, and everything else is two. -/
def threeAndTwo (s : Symbol) : Option ℚ := some (if s = .named "x" then 3 else 2)

theorem substitute_simultaneous_crossing :
    Yields (crossing.valuation threeAndTwo) branching (52 / 5) ∧
      Yields threeAndTwo (branching.substitute crossing) (52 / 5) ∧
      (crossing.lookup (.named "y")).isSome ∧ (branching.substitute crossing).contains (.named "y") = true ∧
      ∃ t r, branching.contains t = true ∧ crossing.lookup t = some r ∧ r.contains (.named "y") = true := by
  have before : Yields (crossing.valuation threeAndTwo) branching (52 / 5) :=
    ⟨by decide +kernel, by decide +kernel⟩
  have bound : (crossing.lookup (.named "y")).isSome := by decide +kernel
  have occurs : (branching.substitute crossing).contains (.named "y") = true := by decide +kernel
  obtain ⟨values, symbols⟩ := substitute_simultaneous branching crossing
  exact ⟨before, values threeAndTwo (52 / 5) before, bound, occurs, symbols (.named "y") bound occurs⟩

end AnalogCircuit.Expr
