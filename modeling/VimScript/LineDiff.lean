import VimScript.LineDiff.Hunk

/-!
What changed between two texts, line by line, with three lines of context.
-/

set_option autoImplicit false

namespace VimScript.LineDiff

def radius : Nat := 3

def hunks (expected actual : List String) : List Hunk :=
  Hunk.ofStretches radius (Stretch.ofEdits (tidy expected actual (edits expected actual)))

/-- The hunks that a search finds between the lines of the expected text and those of the actual one, under a heading;
nothing if the texts are equal. -/
def compareWith (search : List String → List String → List Hunk) (expected actual : String) : Option String :=
  if expected = actual then none
  else
    let old := lines expected
    let new := lines actual
    some ("--- expected\n+++ actual\n" ++ String.join ((search old new).map (Hunk.text old new)))

/-- The hunks that lead from the expected text to the actual one. -/
def compare : String → String → Option String :=
  compareWith hunks

end VimScript.LineDiff
