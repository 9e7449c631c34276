import AnalogCircuit.Expr.Terms
/-!
# The text of an expression

Infix notation with as few parentheses as the levels of the operators allow. A term with a negative
coefficient is written as a subtraction, and a factor `-1` as a sign. The recursion follows the size;
taking the sign off a term does not enlarge it.
-/

namespace AnalogCircuit.Expr

variable {α : Type} [Scalar α]

/-- How tightly an expression binds: comparisons, sums, products, powers, then everything else. -/
def level : Expr α → Nat
  | compare _ _ _ => 1
  | sum _ => 2
  | product _ => 3
  | num v => if Scalar.lt v 0 then 3 else 6
  | power _ _ => 4
  | _ => 6

/-- The factor that is written as a sign. -/
def isMinusOne : Expr α → Bool
  | num v => Scalar.eq v (-1)
  | _ => false

/-- Encloses a text in parentheses. -/
def parenthesized (cs : List Char) : List Char := '(' :: cs ++ [')']

mutual

/-- Writes an expression as an operand at a level; a looser one is put into parentheses. -/
def write (parent : Nat) (e : Expr α) : List Char :=
  if e.level < parent then parenthesized (writeBare e) else writeBare e
termination_by 3 * e.size + 1

/-- Writes an expression without parentheses around it. -/
def writeBare (e : Expr α) : List Char :=
  match e with
  | num v => Scalar.text v
  | sym s => s.text.toList
  | sum [] => []
  | sum (t :: ts) => write 2 t ++ writeTerms ts
  | product fs => writeFactors true fs
  | power b x => write 5 b ++ '^' :: write 5 x
  | call f args => f.name.toList ++ parenthesized (writeArguments args)
  | apply f args => f.toList ++ parenthesized (writeArguments args)
  | compare c a b => write 2 a ++ ' ' :: c.sign.toList ++ ' ' :: write 2 b
  | select c a b => "if".toList ++ parenthesized (writeArguments [c, a, b])
  | derivative x t => 'D' :: parenthesized (write 0 x ++ ", ".toList ++ t.text.toList)
  | integral x t => 'I' :: parenthesized (write 0 x ++ ", ".toList ++ t.text.toList)
termination_by 3 * e.size
decreasing_by all_goals simp only [size, sizeList]; omega

/-- Writes the terms after the first one. -/
def writeTerms (ts : List (Expr α)) : List Char :=
  match ts with
  | [] => []
  | t :: ts =>
    match _h : t.subtrahend? with
    | some s => " - ".toList ++ write 3 s ++ writeTerms ts
    | none => " + ".toList ++ write 2 t ++ writeTerms ts
termination_by 3 * sizeList ts + 2
decreasing_by
  · have := size_of_subtrahend? _h
    simp only [sizeList]; omega
  all_goals
    have := size_pos t
    simp only [sizeList]; omega

/-- Writes factors; those that are `-1` and come first are signs. -/
def writeFactors (first : Bool) (fs : List (Expr α)) : List Char :=
  match fs with
  | [] => []
  | f :: fs =>
    if first && f.isMinusOne then '-' :: writeFactors true fs
    else (if first then [] else ['*']) ++ write 4 f ++ writeFactors false fs
termination_by 3 * sizeList fs + 2
decreasing_by
  all_goals
    have := size_pos f
    simp only [sizeList]; omega

/-- Writes arguments with commas between them. -/
def writeArguments (es : List (Expr α)) : List Char :=
  match es with
  | [] => []
  | [e] => write 0 e
  | e :: es => write 0 e ++ ", ".toList ++ writeArguments es
termination_by 3 * sizeList es + 2
decreasing_by
  all_goals
    have := size_pos e
    simp only [sizeList]; omega

end

/-- A call is the name with the arguments in parentheses. -/
theorem writeBare_call (f : Builtin) (args : List (Expr α)) :
    writeBare (call f args) = f.name.toList ++ parenthesized (writeArguments args) := by
  rw [writeBare]

/-- The text of an expression. -/
def text (e : Expr α) : String := String.ofList (write 0 e)

end AnalogCircuit.Expr
