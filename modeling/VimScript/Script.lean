import VimScript.Statement

/-!
Whole scripts, and sessions in which several are read one after another.
-/

set_option autoImplicit false

namespace VimScript.Script

open Statement (UserNames)

/-- The end of a script: every block has to be closed. -/
def finish (blocks : Blocks) : Scan Node := do
  let position ← Scan.here
  match blocks.missing? .script with
  | some missing => Scan.fail (.missingCloser missing .script) position
  | none =>
    match blocks.script? with
    | some node => return node
    | none => Scan.fail .stackUnderflow position

/-- Reads statements to the end of the buffer, and gives back the record of user commands with the outcome.
Every statement moves the cursor on, which bounds their number by the length of the buffer. -/
def statements (neovim : Bool) (s : Source) :
    Nat → UserNames → Blocks → Nat → Reply Node × UserNames
  | 0, known, _, _ => (.spent, known)
  | n + 1, known, blocks, i =>
    if s.size ≤ i then (finish blocks s i, known)
    else
      match Statement.read ⟨neovim, known, blocks⟩ s i with
      | .ok effect j => statements neovim s n effect.known (blocks.editAll effect.edits) j
      | .fail fault j => (.fail fault j, known)
      | .spent => (.spent, known)

/-- Reads a script against a record of user commands. -/
def readWith (neovim : Bool) (known : UserNames) (s : Source) : Reply Node × UserNames :=
  statements neovim s (s.size + 2) known (.start (s.position 0)) 0

def read (neovim : Bool) (s : Source) : Reply Node :=
  (readWith neovim [] s).1

def ofLines (neovim : Bool) (lines : List String) : Reply Node :=
  read neovim (.ofLines lines)

def ofText (neovim : Bool) (text : String) : Reply Node :=
  read neovim (.ofText text)

end VimScript.Script

namespace VimScript

/-- A reader of scripts that keeps its record of user commands from one script to the next. -/
structure Session where
  neovim : Bool
  known : Statement.UserNames := []

namespace Session

def read (session : Session) (s : Source) : Reply Node × Session :=
  let (reply, known) := Script.readWith session.neovim session.known s
  (reply, { session with known })

/-- Reads scripts in turn. -/
def readAll (session : Session) : List Source → List (Reply Node)
  | [] => []
  | s :: rest =>
    let (reply, session) := session.read s
    reply :: session.readAll rest

end Session

end VimScript
