import VimScript.Command.Lookup
import VimScript.Scan

/-!
The name of a command. Scripts can define commands of their own; those met so far are on record, because a
recorded name is found again by its letters alone, before any digits after them are read.
-/

set_option autoImplicit false

namespace VimScript.Statement

/-- Whether an `s` with the characters after it is the short form of `:substitute` with its flags, and not
the start of another command. -/
def isShortSubstitute : List Char → Bool
  | 's' :: 'c' :: a :: b :: c :: _ => a != 's' && a != 'r' && b != 'i' && c != 'p'
  | 's' :: 'g' :: _ => true
  | 's' :: 'i' :: a :: _ => a != 'm' && a != 'l' && a != 'g'
  | 's' :: 'I' :: _ => true
  | 's' :: 'r' :: a :: _ => a != 'e'
  | _ => false

/-- Whether a name is an abbreviation of `:delete` with a flag letter at its end. -/
def isFlaggedDelete (name : String) : Bool :=
  let cs := name.toList
  name != "del" &&
    (cs.getLast? == some 'l' || cs.getLast? == some 'p') &&
    ["d", "de", "del", "dele", "delet", "delete"].contains (String.ofList cs.dropLast)

/-- The name as typed, without the digits that may end the name of a user command. -/
def typedName : Scan String := do
  match ← Scan.peekInLine with
  | none => return ""
  | some c =>
    if c == 'k' then
      let _ ← Scan.take 1
      return "k"
    else if isShortSubstitute (← Scan.peekRun 5).toList then
      let _ ← Scan.take 1
      return "substitute"
    else if "@*!=><&~#".toList.contains c then
      Scan.take 1
    else if (← Scan.peekRun 2) == "py" then
      Scan.takeClass .alnum
    else
      let start ← Scan.tell
      let name ← Scan.takeClass .alpha
      if isFlaggedDelete name then
        Scan.seek start
        Scan.take (name.length - 1)
      else
        return name

/-- The user commands on record, the last one first. -/
abbrev UserNames := List String

/-- The command named at the cursor, and the record after it. -/
def command (neovim : Bool) (known : UserNames) : Scan (Option Command × UserNames) := do
  let typed ← typedName
  if typed.isEmpty then
    return (none, known)
  else if Command.isUserName neovim typed.toList then
    if known.contains typed then
      return (some (.user typed), known)
    else
      let digits ← Scan.takeClass .alnum
      let name := typed ++ digits
      return (some (.user name), if known.contains name then known else name :: known)
  else
    return (Command.lookup neovim typed.toList, known)

end VimScript.Statement
