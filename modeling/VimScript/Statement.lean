import VimScript.Statement.Argument
import VimScript.Statement.Block
import VimScript.Statement.Name
import VimScript.Statement.Range

/-!
One command with all that stands before and after it on its line, and what it does to the open blocks.
-/

set_option autoImplicit false

namespace VimScript.Statement

/-- What a statement is read against. -/
structure Setting where
  neovim : Bool
  /-- The user commands on record. -/
  known : UserNames
  blocks : Blocks

/-- What a statement comes to: what it does to the open blocks, and the record after it. -/
structure Effect where
  edits : List Edit
  known : UserNames

/-- The rest of the line, in the form the command asks for. -/
def body (blocks : Blocks) (inv : Invocation) : CommandForm → Scan (List Edit)
  | .append | .insert => textLines inv
  | .call => call inv
  | .delFunction => deleteFunction inv
  | .eval => evaluate .eval inv
  | .throw => evaluate .throw inv
  | .catchBranch => catchCommand blocks inv
  | .elseBranch => elseCommand blocks inv
  | .elseIf => elseIf blocks inv
  | .finallyBranch => finallyCommand blocks inv
  | .common | .userCommand => raw inv
  | .assign .letVar => letCommand inv
  | .assign .const => constCommand inv
  | .echo verb => echo verb inv
  | .echoHl => echoHighlight inv
  | .opener .function => functionCommand inv
  | .opener .ifBlock => ifCommand inv
  | .opener .whileLoop => whileCommand inv
  | .opener .forLoop => forCommand inv
  | .opener .tryBlock => tryCommand inv
  | .closer block => closer blocks block inv
  | .jump verb => jump blocks verb inv
  | .finish => finish blocks inv
  | .loadKeymap => remainingLines inv
  | .lock verb => lock verb inv
  | .foreign _ => foreignCode inv
  | .returnValue => returnValue blocks inv
  | .highlighting => highlighting inv
  | .unlet => unlet inv
  | .window => window inv

/-- What some commands take before their argument: `>>` and `!` for files, repetitions of the shifts. -/
def leadIn (inv : Invocation) : Scan Invocation := do
  match inv.name with
  | "write" | "update" =>
    let c ← Scan.peek
    if c == some '>' then
      if (← Scan.peekAt 1) != some '>' then
        Scan.fail .badAppendRedirect inv.commandPos
      Scan.skip 2
      Scan.skipWhite
      return { inv with append := true }
    else if c == some '!' && inv.name == "write" then
      let _ ← Scan.take 1
      return { inv with filter := true }
    else
      return inv
  | "read" =>
    if inv.bang then
      return { inv with filter := true, bang := false }
    else if (← Scan.peekInLine) == some '!' then
      let _ ← Scan.take 1
      return { inv with filter := true }
    else
      return inv
  | "<" | ">" =>
    let more ← Scan.takeWhile fun c => inv.name == String.singleton c
    Scan.skipWhite
    return { inv with shift := 1 + more.length }
  | _ => return inv

/-- A `!` after the name, unless it can be a delimiter there; only some commands allow one. -/
def bang (command : Command) (position : Position) : Scan Bool := do
  let isDelimiter := ["substitute", "smagic", "snomagic"].contains command.name
  if (← Scan.peekInLine) == some '!' && !isDelimiter then
    let _ ← Scan.take 1
    if !command.has .bang && !command.has .usercmd then
      Scan.fail .bangNotAllowed position
    return true
  else
    return false

/-- A named command from its bang on. -/
def invoked (blocks : Blocks) (inv : Invocation) (command : Command) : Scan (List Edit) := do
  let bang ← bang command inv.commandPos
  if command.name != "!" then
    Scan.skipWhite
  let position ← Scan.here
  let inv := { inv with bang, argumentPos := position, command := some command }
  let inv ← (do if command.has .argopt then fileOptions inv else return inv)
  let inv ← leadIn inv
  let inv ← (do if command.has .editcmd && !inv.filter then startCommand inv else return inv)
  body blocks inv command.form

/-- The command at the cursor. A line may end after its modifiers and range; it is kept if it has any. -/
def commandPart (setting : Setting) (inv : Invocation) : Scan Effect := do
  Scan.skipWhiteAndColons
  let position ← Scan.here
  let inv := { inv with commandPos := position }
  let c ← Scan.peekInLine
  if c.isNone || c == some '"' then
    if inv.modifiers.isEmpty && inv.range.isEmpty then
      return ⟨[], setting.known⟩
    else
      return ⟨← commandUpTo inv position.cursor, setting.known⟩
  else
    match ← command setting.neovim setting.known with
    | (none, _) =>
      Scan.seek position.cursor
      Scan.fail (.unknownCommand (← Scan.peekLine)) position
    | (some command, known) => return ⟨← invoked setting.blocks inv command, known⟩

/-- A line from its first command on: modifiers, range, command and what follows it. -/
def commandLine (setting : Setting) : Scan Effect := do
  let position ← Scan.here
  let modifiers ← modifiers
  let range ← range
  let effect ← commandPart setting { linePos := position, modifiers, range }
  let edits ← trail
  return { effect with edits := effect.edits ++ edits }

/-- One statement. A line that starts with `#!` is skipped, as are blank ones. -/
def read (setting : Setting) : Scan Effect := do
  if (← Scan.peekRun 2) == "#!" then
    let _ ← Scan.readLine
    return ⟨[], setting.known⟩
  else
    Scan.skipWhiteAndColons
    match ← Scan.peekInLine with
    | none =>
      let _ ← Scan.next
      return ⟨[], setting.known⟩
    | some '"' =>
      let edits ← comment
      let _ ← Scan.next
      return ⟨edits, setting.known⟩
    | _ => commandLine setting

end VimScript.Statement
