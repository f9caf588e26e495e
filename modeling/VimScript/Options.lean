import VimScript.Json.Reader

/-!
The options of a run, and the file they can be kept in: a JSON object with an entry for each option, or an
array with the values in order. What is missing keeps its default, and entries of other names are ignored.
-/

set_option autoImplicit false

namespace VimScript

structure Options where
  /-- Whether commands are those of Neovim. -/
  neovim : Bool := false
deriving DecidableEq, Repr

namespace Options

open Json.Reader

/-- The members of an object after its opening brace, with the options found so far. No option is given twice.
Every member takes a character at least, which bounds their number. -/
def members? : Nat → Option Bool → List Char → Option (Options × List Char)
  | 0, _, _ => none
  | n + 1, found, cs => do
    let cs ← after? '"' (dropBlanks cs)
    let (key, cs) ← string? cs
    let cs ← after? ':' (dropBlanks cs)
    let (found, cs) ←
      if key == "neovim".toList then
        if found.isSome then none
        else (bool? cs).map fun (value, cs) => (some value, cs)
      else (skipValue? cs).map fun cs => (found, cs)
    match dropBlanks cs with
    | ',' :: cs => members? n found cs
    | '}' :: cs => some (⟨found.getD false⟩, cs)
    | _ => none

def object? (cs : List Char) : Option (Options × List Char) :=
  match dropBlanks cs with
  | '}' :: cs => some ({}, cs)
  | cs => members? (cs.length + 1) none cs

def array? (cs : List Char) : Option (Options × List Char) :=
  match dropBlanks cs with
  | ']' :: cs => some ({}, cs)
  | cs => do
    let (neovim, cs) ← bool? cs
    let cs ← after? ']' (dropBlanks cs)
    return (⟨neovim⟩, cs)

/-- The options a text holds; none if it is not well formed or goes on after them. -/
def ofJson? (text : String) : Option Options := do
  let (options, rest) ←
    match dropBlanks text.toList with
    | '{' :: cs => object? cs
    | '[' :: cs => array? cs
    | _ => none
  if (dropBlanks rest).isEmpty then some options else none

end Options

end VimScript
