import VimScript.Blocks
import VimScript.Expr
import VimScript.Statement.Pattern

/-!
Commands whose argument is kept as text: where the argument ends, and what is recorded of it.
-/

set_option autoImplicit false

namespace VimScript.Statement

/-- White space by its Unicode property. -/
def isUnicodeSpace (c : Char) : Bool :=
  isAsciiSpace c || c == '\u0085' || c == '\u00a0' || c == '\u1680' || ('\u2000' ≤ c && c ≤ '\u200a') ||
    c == '\u2028' || c == '\u2029' || c == '\u202f' || c == '\u205f' || c == '\u3000'

/-- The statement a command with a text makes, its text running from the start of the line to a cursor. -/
def commandUpTo (inv : Invocation) (stop : Nat) : Scan (List Edit) := do
  let text ← Scan.textBetween inv.linePos.cursor stop
  return [.add (.command inv text)]

/-- Skips the pattern of `:vimgrep` and its flags. -/
def grepPattern : Scan Unit := do
  match ← Scan.peekInLine with
  | none => return ()
  | some c =>
    if CharClass.ident.has c then
      let _ ← Scan.takeNonWhite
    else
      let _ ← Scan.take 1
      let (_, delimiter) ← pattern c
      if delimiter == some c then
        Scan.skipWhile fun d => d == 'g' || d == 'j'

/-- Whether a double quote at the cursor is the name of a register: right after `:@` and `:*`, and after the
sigil in `:redir @`. -/
def isRegisterQuote (inv : Invocation) (before : Option Char) (i : Nat) : Bool :=
  ((inv.name == "@" || inv.name == "*") && i == inv.argumentPos.cursor) ||
    (inv.name == "redir" && i == inv.argumentPos.cursor + 1 && before == some '@')

/-- How far an argument has been followed: the character before the cursor, and the cursor after the last one
that was no blank. -/
structure ArgumentScan where
  before : Option Char
  solid : Nat

/-- One character of an argument that a bar or a comment can end. A control-V takes the next character with
it, and a backquoted expression of a file name is read as a whole. -/
def argumentStep (inv : Invocation) (state : ArgumentScan) : Scan (Scan.Turn ArgumentScan (Nat × Nat)) := do
  let i ← Scan.tell
  let solid := if CharClass.white.hasOpt state.before then state.solid else i
  let keepsQuotes := inv.has .notrlcom
  let takesFiles := inv.has .xfile || inv.has .files || inv.has .file1
  let c ← Scan.peek
  match c with
  | none | some '\n' => return .done (i, solid)
  | some '\x16' =>
    Scan.skip 1
    let j ← Scan.tell
    match ← Scan.peekInLine with
    | none => return .done (j, j)
    | some escaped =>
      Scan.skip 1
      return .again ⟨some escaped, j⟩
  | some '\x60' =>
    if takesFiles && (← Scan.peekRun 2) == "\x60=" then
      let _ ← Scan.take 2
      let _ ← Expr.read
      let close ← Scan.peekInLine
      if close != some '\x60' then
        Scan.failHere (.unexpectedCharacter close)
      let _ ← Scan.take 1
      return .again ⟨close, solid⟩
    else
      Scan.skip 1
      return .again ⟨c, solid⟩
  | some '|' =>
    if state.before != some '\\' then return .done (i, solid)
    else
      Scan.skip 1
      return .again ⟨c, solid⟩
  | some '"' =>
    if !keepsQuotes && !isRegisterQuote inv state.before i && state.before != some '\\' then
      return .done (i, solid)
    else
      Scan.skip 1
      return .again ⟨c, solid⟩
  | _ =>
    Scan.skip 1
    return .again ⟨c, solid⟩

/-- Where an argument ends that a bar or a comment can end. Blanks at its end do not belong to it, unless the
command keeps comments. -/
def argumentEnd (inv : Invocation) : Scan Nat := do
  if ["vimgrep", "vimgrepadd", "lvimgrep", "lvimgrepadd"].contains inv.name then
    grepPattern
  let start ← Scan.tell
  let (stop, solid) ← Scan.loop ⟨none, start⟩ (argumentStep inv)
  return if inv.has .notrlcom then stop else solid

/-- A command recorded as text, its argument up to a bar, a comment or the end of the line. -/
def raw (inv : Invocation) : Scan (List Edit) := do
  let stop ← (do
    if inv.has .trlbar && !inv.filter then argumentEnd inv
    else
      let _ ← Scan.takeLine
      Scan.tell)
  if inv.has .needarg then
    let argument ← Scan.textBetween inv.argumentPos.cursor stop
    if argument.toList.all isUnicodeSpace then
      Scan.fail .argumentRequired inv.argumentPos
  commandUpTo inv stop

/-- A `:finish` outside of all blocks ends the script. -/
def finish (blocks : Blocks) (inv : Invocation) : Scan (List Edit) := do
  let edits ← raw inv
  if blocks.innermost == .script then
    Scan.seekEnd
  return edits

/-- The argument of `:wincmd`: one character, or two after `g` and control-G. -/
def window (inv : Invocation) : Scan (List Edit) := do
  let c ← Scan.peekInLine
  if c.isNone then
    Scan.failHere .argumentRequired
  let _ ← Scan.next
  if c == some 'g' || c == some '\x07' then
    let second ← Scan.peekInLine
    let _ ← Scan.take 1
    if second.isNone || CharClass.white.hasOpt second then
      Scan.failHere .invalidArgument
  let stop ← Scan.tell
  Scan.skipWhite
  if !endsCommand (← Scan.peek) then
    Scan.failHere .invalidArgument
  commandUpTo inv stop

/-- The argument of `:syntax`, in which patterns between slashes or quotes and values after an equals sign
hide the bars and quotes inside. -/
def highlighting (inv : Invocation) : Scan (List Edit) := do
  let stop ← Scan.loop () fun _ => do
    let i ← Scan.tell
    let c ← Scan.peek
    match c with
    | some '/' | some '\'' | some '"' =>
      let _ ← Scan.take 1
      let _ ← pattern (c.getD '/')
      let _ ← Scan.take 1
      return .again ()
    | some '=' =>
      let _ ← Scan.take 1
      let _ ← pattern ' '
      let _ ← Scan.take 1
      return .again ()
    | _ =>
      if endsCommand c then return .done i
      else
        let _ ← Scan.take 1
        return .again ()
  commandUpTo inv stop

/-! ### Commands that take whole lines -/

def commandLines (inv : Invocation) (lines : List String) : List Edit :=
  [.add (.command inv ("\n".intercalate lines))]

/-- Lines from the cursor on, added to those given, up to one equal to the marker or to the end of input. The
end of the marker's line is not consumed. -/
def linesUpTo (marker : String) (lines : List String) : Scan (List String) :=
  Scan.loop lines fun lines => do
    if (← Scan.peek).isNone then return .done lines
    else
      let line ← Scan.takeLine
      if line == marker then return .done (lines ++ [line])
      else
        let _ ← Scan.next
        return .again (lines ++ [line])

/-- `:append` and `:insert` take the lines up to a lone dot. -/
def textLines (inv : Invocation) : Scan (List Edit) := do
  Scan.seek inv.linePos.cursor
  let first ← Scan.readLine
  return commandLines inv (← linesUpTo "." [first])

/-- `:loadkeymap` takes all lines that are left. -/
def remainingLines (inv : Invocation) : Scan (List Edit) := do
  Scan.seek inv.linePos.cursor
  let first ← Scan.readLine
  let lines ← Scan.loop [first] fun lines => do
    if (← Scan.peek).isNone then return .done lines
    else
      let line ← Scan.readLine
      return .again (lines ++ [line])
  return commandLines inv lines

/-- Code of another language: the rest of the line, or the lines after `<<` up to a marker. -/
def foreignCode (inv : Invocation) : Scan (List Edit) := do
  Scan.skipWhite
  if (← Scan.peekRun 2) == "<<" then
    let _ ← Scan.take 2
    Scan.skipWhite
    let word ← Scan.readLine
    let marker := if word.isEmpty then "." else word
    Scan.seek inv.linePos.cursor
    let first ← Scan.readLine
    return commandLines inv (← linesUpTo marker [first])
  else
    Scan.seek inv.linePos.cursor
    let line ← Scan.takeLine
    return commandLines inv [line]

end VimScript.Statement
