/-!
Texts as lists of lines. A line keeps its break, which is a newline, a carriage return or both in this order;
the last line may have none.
-/

set_option autoImplicit false

namespace VimScript.LineDiff

/-- Splits off lines, given what was read of the first one, its last character first. -/
def linesFrom : List Char → List Char → List (List Char)
  | [], [] => []
  | read, [] => [read.reverse]
  | read, '\r' :: '\n' :: cs => ('\n' :: '\r' :: read).reverse :: linesFrom [] cs
  | read, c :: cs =>
    if c == '\n' || c == '\r' then (c :: read).reverse :: linesFrom [] cs
    else linesFrom (c :: read) cs

def lines (text : String) : List String :=
  (linesFrom [] text.toList).map String.ofList

/-- How many items two lists have in common from their start on. -/
def commonPrefix {α : Type} [BEq α] : List α → List α → Nat
  | x :: xs, y :: ys => if x == y then commonPrefix xs ys + 1 else 0
  | _, _ => 0

/-- How many items two lists have in common up to their end. -/
def commonSuffix {α : Type} [BEq α] (xs ys : List α) : Nat :=
  commonPrefix xs.reverse ys.reverse

section

variable {α : Type} [BEq α]

theorem commonPrefix_le_left (xs ys : List α) : commonPrefix xs ys ≤ xs.length := by
  fun_induction commonPrefix xs ys <;> simp_all

theorem commonPrefix_le_right (xs ys : List α) : commonPrefix xs ys ≤ ys.length := by
  fun_induction commonPrefix xs ys <;> simp_all

theorem take_commonPrefix [LawfulBEq α] (xs ys : List α) :
    xs.take (commonPrefix xs ys) = ys.take (commonPrefix xs ys) := by
  fun_induction commonPrefix xs ys <;> simp_all

theorem commonSuffix_le_left (xs ys : List α) : commonSuffix xs ys ≤ xs.length := by
  simpa [commonSuffix] using commonPrefix_le_left xs.reverse ys.reverse

theorem commonSuffix_le_right (xs ys : List α) : commonSuffix xs ys ≤ ys.length := by
  simpa [commonSuffix] using commonPrefix_le_right xs.reverse ys.reverse

theorem drop_commonSuffix [LawfulBEq α] (xs ys : List α) :
    xs.drop (xs.length - commonSuffix xs ys) = ys.drop (ys.length - commonSuffix xs ys) := by
  have h := congrArg List.reverse (take_commonPrefix xs.reverse ys.reverse)
  simpa [commonSuffix, List.reverse_take] using h

end

end VimScript.LineDiff
