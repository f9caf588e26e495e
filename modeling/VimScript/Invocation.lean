import VimScript.Command
import VimScript.Position

/-!
What a command line says about its command before the argument is read.
-/

set_option autoImplicit false

namespace VimScript

/-- A word before a command that changes how it runs, such as `silent!` or `3tab`. -/
structure Modifier where
  name : String
  bang : Bool := false
  count : Option Nat := none
deriving DecidableEq, Repr

inductive BinaryMode where
  | bin | noBin
deriving DecidableEq, Repr

structure Invocation where
  /-- A `!` after the command's name. -/
  bang : Bool := false
  /-- Whether a file is appended to. -/
  append : Bool := false
  /-- Whether the argument is a shell command. -/
  filter : Bool := false
  /-- How far lines are shifted. -/
  shift : Nat := 0
  binary : Option BinaryMode := none
  readEdit : Bool := false
  fileFormat : Option String := none
  encoding : Option String := none
  badChar : Option String := none
  /-- What is run in the opened file. -/
  startCommand : Option String := none
  linePos : Position := .unset
  commandPos : Position := .unset
  argumentPos : Position := .unset
  command : Option Command := none
  modifiers : List Modifier := []
  range : List String := []
deriving DecidableEq, Repr

namespace Invocation

def has (inv : Invocation) (f : Flag) : Bool :=
  inv.command.any (·.has f)

def name (inv : Invocation) : String :=
  match inv.command with
  | some c => c.name
  | none => ""

end Invocation

end VimScript
