import VimScript.Statement.Assignment
import VimScript.Statement.Evaluation

/-!
Commands that open, divide and close blocks, and those that leave them. What is open decides whether they may
stand where they do.
-/

set_option autoImplicit false

namespace VimScript.Statement

def ifCommand (inv : Invocation) : Scan (List Edit) := do
  let cond ← Expr.read
  return [.openBlock (.mk inv.commandPos (.ifBlock inv cond [] [] none none))]

def elseIf (blocks : Blocks) (inv : Invocation) : Scan (List Edit) := do
  if blocks.innermost != .ifBlock && blocks.innermost != .elseIf then
    Scan.fail .elseIfWithoutIf inv.commandPos
  let cond ← Expr.read
  return [.openBranch (.mk inv.commandPos (.elseIf inv cond []))]

def elseCommand (blocks : Blocks) (inv : Invocation) : Scan (List Edit) := do
  if blocks.innermost != .ifBlock && blocks.innermost != .elseIf then
    Scan.fail .elseWithoutIf inv.commandPos
  return [.openBranch (.mk inv.commandPos (.elseBranch inv []))]

def whileCommand (inv : Invocation) : Scan (List Edit) := do
  let cond ← Expr.read
  return [.openBlock (.mk inv.commandPos (.whileLoop inv cond [] none))]

def forCommand (inv : Invocation) : Scan (List Edit) := do
  let left ← targets target
  Scan.skipWhite
  let position ← Scan.here
  let word ← Scan.takeClass .alpha
  if word != "in" then
    Scan.fail .missingIn position
  let values ← Expr.read
  return [.openBlock (.mk inv.commandPos (.forLoop inv left.single left.items left.rest values [] none))]

def tryCommand (inv : Invocation) : Scan (List Edit) :=
  return [.openBlock (.mk inv.commandPos (.tryBlock inv [] [] none none))]

def catchCommand (blocks : Blocks) (inv : Invocation) : Scan (List Edit) := do
  if blocks.innermost == .finallyBranch then
    Scan.fail .catchAfterFinally inv.commandPos
  if blocks.innermost != .tryBlock && blocks.innermost != .catchBranch then
    Scan.fail .catchWithoutTry inv.commandPos
  Scan.skipWhite
  let c ← Scan.peek
  let text ← (do
    match c with
    | some delimiter =>
      if endsCommand c then return none
      else
        Scan.skip 1
        let (text, _) ← pattern delimiter
        return some text
    | none => return none)
  return [.openBranch (.mk inv.commandPos (.catchBranch inv text []))]

def finallyCommand (blocks : Blocks) (inv : Invocation) : Scan (List Edit) := do
  if blocks.innermost != .tryBlock && blocks.innermost != .catchBranch then
    Scan.fail .finallyWithoutTry inv.commandPos
  return [.openBranch (.mk inv.commandPos (.finallyBranch inv []))]

/-- A closing command needs its own block innermost. At the end of a function another block left open there
is reported first, and the rest of the line is ignored. -/
def closer (blocks : Blocks) (block : BlockSort) (inv : Invocation) : Scan (List Edit) := do
  if block == .function then
    if let some missing := blocks.missing? .function then
      Scan.fail (.missingCloser missing .function) inv.commandPos
  if blocks.innermost.block? != some block then
    Scan.fail (.closerWithoutOpener block) inv.commandPos
  if block == .function then
    let _ ← Scan.takeLine
  return [.closeBlock (.mk inv.commandPos (.closer block inv))]

def jump (blocks : Blocks) (verb : Jump) (inv : Invocation) : Scan (List Edit) := do
  if !blocks.insideLoop then
    match verb with
    | .restart => Scan.fail .continueOutsideLoop inv.commandPos
    | .leave => Scan.fail .breakOutsideLoop inv.commandPos
  return [.add (.mk inv.commandPos (.jump verb inv))]

/-! ### Functions -/

/-- Whether a name may name a function: it has a scope or an autoload path, or starts with a capital, an
underscore or a script mark. -/
def isFunctionName (name : String) : Bool :=
  let cs := name.toList
  cs.contains ':' || cs.contains '#' || cs.head?.any fun c => c == '<' || c == '_' || c.isUpper

/-- Parameters of a function and the defaults of the last ones. -/
structure Parameters where
  names : List Node := []
  defaults : List Node := []

/-- One named parameter with its default, and the token after it. -/
def functionParameter (found : Parameters) (token : Token) : Scan (Parameters × Token) := do
  if !isArgumentName token.value || token.value == "firstline" || token.value == "lastline" then
    Scan.fail (.illegalArgument token.value) token.position
  if found.names.any fun n => n.leafText? == some token.value then
    Scan.fail (.duplicateArgument token.value) token.position
  let names := found.names ++ [.identifier token.value token.position]
  let defaults ← (do
    if (← Token.peek).kind == .assign then
      let _ ← Token.next
      let value ← Expr.read
      return found.defaults ++ [value]
    else if !found.defaults.isEmpty then
      Scan.fail .defaultBeforePlain token.position
    else
      return found.defaults)
  if CharClass.white.hasOpt (← Scan.peek) then
    if (← Token.peek).kind == .comma then
      Scan.failHere .blankBeforeComma
  let after ← Token.next
  return (⟨names, defaults⟩, after)

/-- The parameters after the parenthesis: names, names with defaults, and an ellipsis at the end. -/
def functionParameters : Scan Parameters := do
  if (← Token.peek).kind == .parenClose then
    let _ ← Token.next
    return {}
  else
    Scan.loop ({} : Parameters) fun found => do
      let token ← Token.next
      match token.kind with
      | .identifier =>
        let (found, after) ← functionParameter found token
        match after.kind with
        | .comma =>
          if (← Token.peek).kind == .parenClose then
            let _ ← Token.next
            return .done found
          else
            return .again found
        | .parenClose => return .done found
        | _ => Expr.unexpected after
      | .ellipsis =>
        let names := found.names ++ [.identifier token.value token.position]
        let after ← Token.next
        if after.kind != .parenClose then Expr.unexpected after
        return .done { found with names }
      | _ => Expr.unexpected token

def functionFlags : Scan FunctionFlags :=
  Scan.loop ({} : FunctionFlags) fun flags => do
    Scan.skipWhite
    let position ← Scan.here
    let word ← Scan.takeClass .alpha
    match word with
    | "" => return .done flags
    | "range" => return .again { flags with range := true }
    | "abort" => return .again { flags with abort := true }
    | "dict" => return .again { flags with dict := true }
    | "closure" => return .again { flags with closure := true }
    | _ => Scan.fail (.unexpectedToken word) position

/-- A `:function`. Without parameters it lists functions, and its text is kept. -/
def functionCommand (inv : Invocation) : Scan (List Edit) := do
  let start ← Scan.tell
  Scan.skipWhite
  let c ← Scan.peek
  if endsCommand c || c == some '/' then
    Scan.seek start
    raw inv
  else
    let name ← functionName
    Scan.skipWhite
    if let .leaf .identifier text := name.kind then
      if !isFunctionName text then
        Scan.fail (.badFunctionName text) name.position
    if (← Scan.peekInLine) != some '(' then
      Scan.seek start
      raw inv
    else
      let _ ← Scan.take 1
      let params ← functionParameters
      let flags ← functionFlags
      return [.openBlock (.mk inv.commandPos
        (.function inv name params.names params.defaults flags [] none))]

end VimScript.Statement
