import AnalogCircuit.Proofs.Doubles
import AnalogCircuit.Proofs.Reading
/-!
# Printing and parsing

The text of a canonical expression over doubles, whose constants are finite and whose names are found again, is parsed
to the same expression. That a double is found again by its digits is not part of it.
-/

namespace AnalogCircuit.Expr

/-- Parsing undoes printing on canonical expressions. -/
theorem parse_text_of_isCanonical {e : Expr Double} (canonical : IsCanonical e) (legible : IsLegible e)
    (reads : ∀ v, num v ∈ e.nodes → ReadsBack (Scalar.abs v)) : parse e.text = .ok e :=
  (canonical.isPrintable legible reads).parse_text

/-- `(-3)*c - 2.5*y*sin(x[t0]) - a*b + x^p + if(a < b, f(n[1]), 0.125) + D(x, t)`. -/
def assorted : Expr Double :=
  sum [product [num (-3.0), named "c"],
    product [num (-2.5), named "y", call .sin [sym (Symbol.named "x").previous]],
    product [num (-1), named "a", named "b"],
    power (named "x") (named "p"),
    select (compare .lt (named "a") (named "b")) (apply "f" [named "n[1]"]) (num 0.125),
    derivative (named "x") Symbol.time]

theorem parse_text_assorted :
    IsCanonical assorted ∧ IsLegible assorted ∧ (∀ v, num v ∈ assorted.nodes → ReadsBack (Scalar.abs v)) ∧
      parse assorted.text = .ok assorted := by
  have canonical : IsCanonical assorted := by
    have rebuilt : (assorted.nodes.all fun n => mapChildren id n == n) = true := by decide +kernel
    exact fun n hn => eq_of_beq (List.all_eq_true.mp rebuilt n hn)
  have legible : IsLegible assorted := by
    have plain {v : Double} (h : v.isFinite = true ∧ v ≠ -0) : Scalar.IsPlain v := Double.isPlain_iff.mpr h
    have current {name : String} (h : IsIdentifier name.toList ∧ name ≠ "pi" ∧ name ≠ "e") :
        (Symbol.named name).IsLegible := .current rfl h.1 h.2.1 h.2.2
    have bracketed : (Symbol.named "n[1]").IsLegible := by
      have whole : "n[1]".toList = ['n'] ++ '[' :: ['1'] ++ [']'] := rfl
      exact .bracketed rfl whole (by decide) (by decide) (by decide)
    have previous : (Symbol.named "x").previous.IsLegible :=
      .previous rfl (by decide) (by decide) (by decide) (by decide)
    simp only [IsLegible, Everywhere, assorted, nodes, nodesList, named, List.mem_cons, List.not_mem_nil, or_false,
      forall_eq_or_imp, forall_eq, List.append_nil, List.cons_append, List.nil_append, LegibleNode, true_and]
    refine ⟨plain ?_, current ?_, plain ?_, current ?_, rfl, previous, plain ?_, current ?_, current ?_, current ?_,
      current ?_, current ?_, current ?_, ?_, bracketed, plain ?_, current ?_, current ?_⟩
    all_goals decide +kernel
  have reads : ∀ v, num v ∈ assorted.nodes → ReadsBack (Scalar.abs v) := by
    have back {v : Double} (h : (spanQuantity (Scalar.text v)).map (fun r => (r.1.value, r.2)) = some (v, [])) :
        ReadsBack v := by
      obtain ⟨⟨q, rest⟩, found, same⟩ := Option.map_eq_some_iff.mp h
      obtain ⟨rfl, rfl⟩ := Prod.mk.inj same
      exact ⟨q, found, rfl⟩
    simp only [assorted, nodes, nodesList, named, List.mem_cons, List.not_mem_nil, or_false, List.append_nil,
      List.cons_append, List.nil_append, reduceCtorEq, false_or, num.injEq]
    rintro v (rfl | rfl | rfl | rfl) <;> exact back (by decide +kernel)
  exact ⟨canonical, legible, reads, parse_text_of_isCanonical canonical legible reads⟩

end AnalogCircuit.Expr
