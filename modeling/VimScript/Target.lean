import VimScript.Expr

/-!
What can be assigned to: names, options, environment variables and registers, with subscripts, slices and
members after them.
-/

set_option autoImplicit false

namespace VimScript.Target

def base : Scan Node := do
  let start ← Scan.tell
  let token ← Token.next
  match token.kind with
  | .option => return .leaf .option token.value token.position
  | .env => return .leaf .env token.value token.position
  | .register => return .leaf .register token.value token.position
  | .braceOpen | .identifier =>
    Scan.seek start
    Expr.name Expr.read
  | .compare .smaller .byOption =>
    if ← Expr.afterAngleIsScriptId then
      Scan.seek start
      Expr.name Expr.read
    else
      Expr.unexpected token
  | _ => Expr.unexpected token

def read : Scan Node := do
  let first ← base
  Scan.loop first fun left => do
    let start ← Scan.tell
    let adjacent := !CharClass.white.hasOpt (← Scan.peek)
    let token ← Token.next
    match token.kind, adjacent with
    | .bracketOpen, true => return .again (← Expr.index Expr.read left token.position)
    | .dot, true =>
      match ← Expr.member left token.position with
      | some node => return .again node
      | none =>
        Scan.seek start
        return .done left
    | _, _ =>
      Scan.seek start
      return .done left

end VimScript.Target
