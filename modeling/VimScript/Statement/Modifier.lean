import VimScript.Invocation
import VimScript.Scan

/-!
The modifiers before a command.
-/

set_option autoImplicit false

namespace VimScript.Statement

/-- The modifiers in the order they are tried, with the least number of letters each may be shortened to. -/
def modifierNames : List (String × Nat) :=
  [("aboveleft", 3), ("belowright", 3), ("browse", 3), ("botright", 2), ("confirm", 4), ("keepmarks", 3),
    ("keepalt", 5), ("keepjumps", 5), ("keeppatterns", 5), ("hide", 3), ("lockmarks", 3), ("leftabove", 5),
    ("noautocmd", 3), ("noswapfile", 3), ("rightbelow", 6), ("sandbox", 3), ("silent", 3), ("tab", 3),
    ("topleft", 2), ("unsilent", 3), ("vertical", 4), ("verbose", 4)]

def modifierName? (typed : String) : Option String :=
  (modifierNames.find? fun (name, least) =>
    typed.toList.isPrefixOf name.toList && least ≤ typed.length).map Prod.fst

/-- The value of a run of digits, if it has any and fits into 64 bits. -/
def countOf? (digits : String) : Option Nat :=
  if digits.isEmpty then none
  else
    let value := digits.toList.foldl (fun n d => 10 * n + (d.toNat - 48)) 0
    if value < UInt64.size then some value else none

/-- The modifier of a name, from the digits before it; a bang after `silent` is consumed. -/
def modifierOf (name digits : String) (after : Option Char) : Scan Modifier := do
  match name with
  | "silent" =>
    if after == some '!' then
      let _ ← Scan.next
      return { name, bang := true }
    else
      return { name }
  | "tab" => return { name, count := countOf? digits }
  | "verbose" => return { name, count := some ((countOf? digits).getD 1) }
  | _ => return { name }

/-- The modifiers at the cursor. A `hide` that ends the command is the command itself. -/
def modifiers : Scan (List Modifier) :=
  Scan.loop [] fun found => do
    let start ← Scan.tell
    let digits ← (do
      if CharClass.digit.hasOpt (← Scan.peekInLine) then
        let digits ← Scan.takeClass .digit
        Scan.skipWhite
        return digits
      else
        return "")
    let typed ← Scan.takeClass .alpha
    let after ← Scan.peekInLine
    Scan.skipWhite
    match modifierName? typed with
    | none =>
      Scan.seek start
      return .done found
    | some name =>
      if name == "hide" && endsCommand after then
        Scan.seek start
        return .done found
      else
        let modifier ← modifierOf name digits after
        return .again (found ++ [modifier])

end VimScript.Statement
