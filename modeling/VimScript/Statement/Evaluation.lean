import VimScript.Blocks
import VimScript.Expr
import VimScript.Target

/-!
Commands that evaluate expressions.
-/

set_option autoImplicit false

namespace VimScript.Statement

/-- What `:function` and `:delfunction` take as a name: any target but a slice. -/
def functionName : Scan Node := do
  let node ← Target.read
  if node.type == .slice then
    Scan.fail .invalidTarget node.position
  return node

def operand (verb : OperandVerb) (inv : Invocation) (value : Node) : List Edit :=
  [.add (.mk inv.commandPos (.operand verb inv value))]

def deleteFunction (inv : Invocation) : Scan (List Edit) := do
  return operand .delFunction inv (← functionName)

def call (inv : Invocation) : Scan (List Edit) := do
  Scan.skipWhite
  if endsCommand (← Scan.peek) then
    Scan.failHere .argumentRequired
  let value ← Expr.read
  if value.type != .call then
    Scan.fail .notACall value.position
  return operand .call inv value

/-- A `:throw` or an `:eval`. -/
def evaluate (verb : OperandVerb) (inv : Invocation) : Scan (List Edit) := do
  return operand verb inv (← Expr.read)

def returnValue (blocks : Blocks) (inv : Invocation) : Scan (List Edit) := do
  if !blocks.insideFunction then
    Scan.fail .returnOutsideFunction inv.commandPos
  Scan.skipWhite
  let c ← Scan.peek
  let value ← (do
    if c == some '"' || !endsCommand c then some <$> Expr.read
    else return none)
  return [.add (.mk inv.commandPos (.returnValue inv value))]

/-- Expressions separated by blanks; a double quote starts a string here. -/
def expressions : Scan (List Node) :=
  Scan.loop [] fun found => do
    Scan.skipWhite
    let c ← Scan.peek
    if c != some '"' && endsCommand c then return .done found
    else
      let value ← Expr.read
      return .again (found ++ [value])

def echo (verb : EchoVerb) (inv : Invocation) : Scan (List Edit) := do
  let values ← expressions
  return [.add (.mk inv.commandPos (.echo verb inv values))]

def echoHighlight (inv : Invocation) : Scan (List Edit) := do
  let text ← Scan.takeWhile fun c => !endsCommand (some c)
  return [.add (.mk inv.commandPos (.echoHl inv text))]

end VimScript.Statement
