import VimScript.Scan

/-!
Search patterns.
-/

set_option autoImplicit false

namespace VimScript.Statement

/-- Reads a pattern up to its delimiter, which is consumed, or to the end of the line. A backslash takes the
next character with it. Brackets are counted, and the delimiter ends the pattern only where the count is zero;
a closing bracket without an opening one makes it negative. Answers with the pattern and the delimiter. -/
def pattern (delimiter : Char) : Scan (String × Option Char) := do
  let start ← Scan.tell
  Scan.loop (0 : Int) fun depth => do
    match ← Scan.peekInLine with
    | none => return .done (← Scan.textSince start, none)
    | some c =>
      let stop ← Scan.tell
      Scan.skip 1
      if c == delimiter && depth == 0 then
        return .done (← Scan.textBetween start stop, some c)
      else
        match c with
        | '\\' =>
          if (← Scan.peekInLine).isNone then
            Scan.failHere .badPattern
          Scan.skip 1
          return .again depth
        | '[' => return .again (depth + 1)
        | ']' => return .again (depth - 1)
        | _ => return .again depth

end VimScript.Statement
