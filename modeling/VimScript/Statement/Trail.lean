import VimScript.Blocks
import VimScript.Scan

/-!
What may follow a command on its line: nothing, a bar before the next command, or a comment.
-/

set_option autoImplicit false

namespace VimScript.Statement

/-- A comment at its double quote, up to the end of the line. -/
def comment : Scan (List Edit) := do
  let position ← Scan.here
  Scan.skip 1
  let text ← Scan.takeLine
  return [.add (.mk position (.comment text))]

/-- Ends a command; the bar or the end of the line is consumed. -/
def trail : Scan (List Edit) := do
  Scan.skipWhite
  match ← Scan.peek with
  | none => return []
  | some '\n' | some '|' =>
    Scan.skip 1
    return []
  | some '"' =>
    let edits ← comment
    let _ ← Scan.next
    return edits
  | some c => Scan.failHere (.trailing c)

end VimScript.Statement
