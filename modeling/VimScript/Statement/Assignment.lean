import VimScript.Statement.Modifier
import VimScript.Statement.Raw
import VimScript.Statement.Trail
import VimScript.Target

/-!
Commands that set, remove and lock variables.
-/

set_option autoImplicit false

namespace VimScript.Statement

/-- An assignment target; a plain name has to be a variable name. -/
def target : Scan Node := do
  let node ← Target.read
  match node.kind with
  | .leaf .identifier name =>
    if isVariableName name then return node
    else Scan.fail (.illegalVariable name) node.position
  | _ => return node

/-- What keeps a target from being a constant, if anything does. -/
def unlockable? : NodeType → Option String
  | .subscript | .slice | .dot => some "a list or dict"
  | .leaf .option => some "an option"
  | .leaf .env => some "an environment variable"
  | .leaf .register => some "a register"
  | _ => none

def constantTarget : Scan Node := do
  let node ← target
  match unlockable? node.type with
  | some what => Scan.fail (.cannotLock what) node.position
  | none => return node

/-- A target read by the given scan, or a list of targets in brackets. -/
def targets (single : Scan Node) : Scan (Targets Node) := do
  if (← Token.peek).kind != .bracketOpen then
    let node ← single
    return { single := some node }
  else
    let _ ← Token.next
    Scan.loop [] fun items => do
      let item ← target
      let items := items ++ [item]
      let token ← Token.next
      match token.kind with
      | .bracketClose => return .done { items }
      | .comma => return .again items
      | .semicolon =>
        let rest ← target
        let close ← Token.next
        if close.kind != .bracketClose then
          Scan.fail (.badTargetList close.value) close.position
        return .done { items, rest := some rest }
      | _ => Scan.fail (.badTargetList token.value) token.position

def assignment (verb : AssignVerb) (inv : Invocation) (op : String) (left : Targets Node)
    (value : Node) : Edit :=
  .add (.mk inv.commandPos (.assign verb inv op left.single left.items left.rest value))

/-- The options of a heredoc, words that start with a small letter, and its marker, the first other word. -/
def heredocHead : Scan (List String × String) :=
  Scan.loop [] fun options => do
    Scan.skipWhite
    let word ← Scan.takeClass .word
    if word.isEmpty then return .done (options, "")
    else if word.toList.head?.any Char.isLower then return .again (options ++ [word])
    else return .done (options, word)

/-- A heredoc after its operator. Its lines end at one equal to the marker; a comment after the marker's first
mention is a statement of its own. -/
def heredoc (inv : Invocation) : Scan (Node × List Edit) := do
  let (options, marker) ← heredocHead
  if marker.isEmpty then
    Scan.failHere .missingMarker
  let edits ← trail
  let lines ← Scan.loop [] fun lines => do
    if (← Scan.peek).isNone then
      Scan.failHere (.missingEndMarker marker)
    else
      let line ← Scan.takeLine
      if line == marker then return .done lines
      else
        let _ ← Scan.next
        return .again (lines ++ [line])
  return (.mk inv.commandPos (.heredoc options marker lines), edits)

def compoundOperators : List String :=
  ["+=", "-=", ".=", "..=", "*=", "/=", "%="]

/-- The longest text at the cursor that could be an assignment operator of two characters or more. -/
def longOperator : Scan String := do
  let two ← Scan.peekRun 2
  if two == ".." || two == "=<" then Scan.peekRun 3
  else return two

/-- A `:let`. Without an operator it lists variables, and its text is kept. -/
def letCommand (inv : Invocation) : Scan (List Edit) := do
  let start ← Scan.tell
  Scan.skipWhite
  if endsCommand (← Scan.peek) then
    Scan.seek start
    raw inv
  else
    let left ← targets target
    Scan.skipWhite
    let short ← Scan.peekRun 1
    let long ← longOperator
    if compoundOperators.contains long then
      let _ ← Scan.take long.length
      let value ← Expr.read
      return [assignment .letVar inv long left value]
    else if long == "=<<" then
      let _ ← Scan.take 3
      Scan.skipWhite
      let (value, edits) ← heredoc inv
      return edits ++ [assignment .letVar inv long left value]
    else if short == "=" then
      let _ ← Scan.take 1
      let value ← Expr.read
      return [assignment .letVar inv short left value]
    else
      Scan.seek start
      raw inv

def constCommand (inv : Invocation) : Scan (List Edit) := do
  let start ← Scan.tell
  Scan.skipWhite
  if endsCommand (← Scan.peek) then
    Scan.seek start
    raw inv
  else
    let left ← targets constantTarget
    Scan.skipWhite
    if (← Scan.peekInLine) == some '=' then
      let _ ← Scan.take 1
      let value ← Expr.read
      return [assignment .const inv "=" left value]
    else
      Scan.seek start
      raw inv

/-- The variables of `:unlet` and `:lockvar`; the first is read as an expression. -/
def variableList : Scan (List Node) := do
  let first ← Expr.read
  Scan.loop [first] fun found => do
    Scan.skipWhite
    if endsCommand (← Scan.peek) then return .done found
    else
      let node ← target
      return .again (found ++ [node])

def unlet (inv : Invocation) : Scan (List Edit) := do
  let found ← variableList
  return [.add (.mk inv.commandPos (.unlet inv found))]

def lock (verb : LockVerb) (inv : Invocation) : Scan (List Edit) := do
  Scan.skipWhite
  let digits ← Scan.takeClass .digit
  let found ← variableList
  return [.add (.mk inv.commandPos (.lock verb inv (countOf? digits) found))]

end VimScript.Statement
