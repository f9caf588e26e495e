import VimScript.LineDiff.Lines
import VimScript.LineDiff.Meeting

/-!
The edits that lead from one list of lines to another: stretches that are kept, dropped or added.
-/

set_option autoImplicit false

namespace VimScript.LineDiff

inductive Action where
  | keep | drop | add
deriving DecidableEq, Repr

/-- An action on a number of lines. -/
structure Step where
  action : Action
  count : Nat
deriving DecidableEq, Repr

namespace Step

/-- The step for a number of lines, none if there are no lines. -/
def some? (action : Action) : Nat → List Step
  | 0 => []
  | count => [⟨action, count⟩]

end Step

/-- All lines of one list dropped, all of the other one added. -/
def replaceAll (n m : Nat) : List Step :=
  Step.some? .drop n ++ Step.some? .add m

/-- The steps from one list of lines to another. Common lines at both ends are kept; what is between them is
split where two searches meet. -/
def steps (old new : List String) : List Step :=
  let start := commonPrefix old new
  let old' := old.drop start
  let new' := new.drop start
  let stop := commonSuffix old' new'
  let n := old'.length - stop
  let m := new'.length - stop
  let inner :=
    if 0 < n ∧ 0 < m then
      match meeting? (old'.take n) (new'.take m) with
      | some (x, y) =>
        if 0 < x + y ∧ x + y < n + m then
          steps ((old'.take n).take x) ((new'.take m).take y) ++
            steps ((old'.take n).drop x) ((new'.take m).drop y)
        else replaceAll n m
      | none => replaceAll n m
    else replaceAll n m
  Step.some? .keep start ++ inner ++ Step.some? .keep stop
termination_by old.length + new.length
decreasing_by
  all_goals
    simp only [List.length_take, List.length_drop]
    grind

/-- A stretch of lines with the places recorded for it in the old and the new text. Later changes move a
stretch without looking at its neighbours, so a record may be out of step with them. -/
structure Edit where
  action : Action
  old : Nat
  new : Nat
  count : Nat
deriving DecidableEq, Repr

/-- Steps with the places where they happen. -/
def place : Nat → Nat → List Step → List Edit
  | _, _, [] => []
  | old, new, ⟨.keep, n⟩ :: rest => ⟨.keep, old, new, n⟩ :: place (old + n) (new + n) rest
  | old, new, ⟨.drop, n⟩ :: rest => ⟨.drop, old, new, n⟩ :: place (old + n) new rest
  | old, new, ⟨.add, n⟩ :: rest => ⟨.add, old, new, n⟩ :: place old (new + n) rest

def edits (old new : List String) : List Edit :=
  place 0 0 (steps old new)

end VimScript.LineDiff
