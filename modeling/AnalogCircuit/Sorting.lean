/-!
# Sorting

Sorting by insertion: the lists that are sorted here are short, and the recursion is that of the list.
-/

namespace AnalogCircuit

variable {β : Type}

/-- Puts an element in front of the first one that it may precede. -/
def insertBy (le : β → β → Bool) (x : β) : List β → List β
  | [] => [x]
  | y :: ys => if le x y then x :: y :: ys else y :: insertBy le x ys

/-- Sorts a list; elements that may precede each other keep their order. -/
def sortBy (le : β → β → Bool) (xs : List β) : List β := xs.foldr (insertBy le) []

theorem insertBy_perm (le : β → β → Bool) (x : β) (ys : List β) :
    (insertBy le x ys).Perm (x :: ys) := by
  induction ys with
  | nil => exact List.Perm.refl _
  | cons y ys ih =>
    unfold insertBy
    split
    · exact List.Perm.refl _
    · exact (ih.cons y).trans (List.Perm.swap x y ys)

/-- Sorting only moves elements. -/
theorem sortBy_perm (le : β → β → Bool) (xs : List β) : (sortBy le xs).Perm xs := by
  induction xs with
  | nil => exact List.Perm.refl _
  | cons x xs ih => exact (insertBy_perm le x (sortBy le xs)).trans (ih.cons x)

end AnalogCircuit
