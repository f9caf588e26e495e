import VimScript.Command.Table

/-!
Which command a typed name stands for.
-/

set_option autoImplicit false

namespace VimScript.Command

/-- The first command of a list that accepts the typed letters, with its place in the list. -/
def firstAccepting (commands : List Command) (typed : List Char) : Option (Nat × Command) :=
  match commands.findIdx? (·.accepts typed) with
  | some i => commands[i]?.map fun c => (i, c)
  | none => none

/-- In Neovim its own commands win over the shared ones, and those it does not have win over both. -/
def lookup (neovim : Bool) (typed : List Char) : Option Command :=
  let shared := builtin.find? (·.accepts typed)
  if neovim then
    if neovimRemoved.any (·.accepts typed) then none
    else (neovimAdded.find? (·.accepts typed)).or shared
  else shared

/-- A capital name that the tables leave open, `Print` and its abbreviations included, is a user command. -/
def isUserName (neovim : Bool) (typed : List Char) : Bool :=
  typed.head?.any Char.isUpper && (lookup neovim typed).all (·.name == "Print")

end VimScript.Command
