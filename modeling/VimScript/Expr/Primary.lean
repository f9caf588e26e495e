import VimScript.Expr.Postfix

/-!
Operands: literals, names, lists, expressions in parentheses, and what starts with a brace.
-/

set_option autoImplicit false

namespace VimScript.Expr

def list (expr : Scan Node) (position : Position) : Scan Node := do
  if (← Token.peek).kind == .bracketClose then
    let _ ← Token.next
    return .mk position (.list [])
  else
    Scan.loop [] fun items => do
      let item ← expr
      let items := items ++ [item]
      let token ← Token.peek
      match token.kind with
      | .comma =>
        let _ ← Token.next
        if (← Token.peek).kind == .bracketClose then
          let _ ← Token.next
          return .done (.mk position (.list items))
        else
          return .again items
      | .bracketClose =>
        let _ ← Token.next
        return .done (.mk position (.list items))
      | _ => unexpected token

/-- A parameter name of a lambda, checked against those before it. -/
def parameter (params : List Node) (token : Token) : Scan Node := do
  if !isArgumentName token.value then
    Scan.fail (.illegalArgument token.value) token.position
  if params.any fun p => p.leafText? == some token.value then
    Scan.fail (.duplicateArgument token.value) token.position
  if CharClass.white.hasOpt (← Scan.peek) then
    if (← Token.peek).kind == .comma then
      Scan.failHere .blankBeforeComma
  return .identifier token.value token.position

/-- The parameters of a lambda up to its arrow, from their first token on. There are none to be had if a token
turns out to be neither a name nor the arrow; a fault is raised where a name settles that this is a lambda. -/
def parameters (first : Token) : Scan (Option (List Node)) :=
  Scan.loop (([], first) : List Node × Token) fun (params, token) => do
    match token.kind with
    | .arrow => return .done (some params)
    | .identifier =>
      let param ← parameter params token
      let params := params ++ [param]
      let after ← Token.next
      match after.kind with
      | .comma =>
        if (← Token.peek).kind == .arrow then
          let _ ← Token.next
          return .done (some params)
        else
          return .again (params, ← Token.next)
      | .arrow => return .done (some params)
      | _ =>
        Scan.fail (.unexpectedParameterToken after.value after.kind.code) after.position
    | .ellipsis =>
      let params := params ++ [.identifier token.value token.position]
      let after ← Token.peek
      if after.kind == .arrow then
        let _ ← Token.next
        return .done (some params)
      else
        unexpected after
    | _ => return .done none

/-- A lambda from the first token after its brace on, unless that cannot be one. -/
def lambda (expr : Scan Node) (first : Token) (position : Position) : Scan (Option Node) := do
  match ← parameters first with
  | none => return none
  | some params =>
    let body ← expr
    let close ← Token.next
    if close.kind != .braceClose then unexpected close
    return some (.mk position (.lambda params body))

def literalKey : Scan Node := do
  let (key, position) ← Token.literalKey
  return .leaf .string ("'" ++ key ++ "'") position

/-- A dictionary after its brace. A single key without a value is a name in braces instead; it is read again
from the brace. -/
def dict (expr key : Scan Node) (start : Nat) (position : Position) : Scan Node := do
  if (← Token.peek).kind == .braceClose then
    let _ ← Token.next
    return .mk position (.dict [])
  else
    Scan.loop [] fun entries => do
      let key ← key
      let colon ← Token.next
      match colon.kind with
      | .braceClose =>
        if entries.isEmpty then
          Scan.seek start
          return .done (← name expr)
        else
          unexpected colon
      | .colon =>
        let value ← expr
        let entries := entries ++ [(key, value)]
        let token ← Token.next
        match token.kind with
        | .comma =>
          if (← Token.peek).kind == .braceClose then
            let _ ← Token.next
            return .done (.mk position (.dict entries))
          else
            return .again entries
        | .braceClose => return .done (.mk position (.dict entries))
        | _ => unexpected token
      | _ => unexpected colon

/-- Whether the first token after a brace, and the one after it, promise a lambda. A string promises none. -/
def promisesLambda (first : Token) : Scan Bool := do
  match first.kind with
  | .arrow => return true
  | .singleQuote | .doubleQuote => return false
  | _ =>
    let second ← Token.peek
    return second.kind == .arrow || second.kind == .comma

/-- What a brace opens: a lambda, a dictionary or a name. -/
def braces (expr : Scan Node) (start : Nat) (brace : Token) : Scan Node := do
  let inside ← Scan.tell
  let first ← Token.next
  let found ← (do
    if ← promisesLambda first then lambda expr first brace.position
    else return none)
  match found with
  | some node => return node
  | none =>
    Scan.seek inside
    let key := if brace.kind == .literalBraceOpen then literalKey else expr
    dict expr key start brace.position

def primary (expr : Scan Node) : Scan Node := do
  let start ← Scan.tell
  let token ← Token.next
  match token.kind with
  | .number => return .leaf .number token.value token.position
  | .blob => return .leaf .blob token.value token.position
  | .option => return .leaf .option token.value token.position
  | .env => return .leaf .env token.value token.position
  | .register => return .leaf .register token.value token.position
  | .doubleQuote =>
    Scan.seek start
    let body ← Token.doubleQuoted
    return .leaf .string ("\"" ++ body ++ "\"") token.position
  | .singleQuote =>
    Scan.seek start
    let body ← Token.singleQuoted
    return .leaf .string ("'" ++ body ++ "'") token.position
  | .bracketOpen => list expr token.position
  | .braceOpen | .literalBraceOpen => braces expr start token
  | .parenOpen =>
    let inner ← expr
    let close ← Token.next
    if close.kind != .parenClose then unexpected close
    return inner
  | .compare .smaller .byOption =>
    if ← afterAngleIsScriptId then
      Scan.seek start
      name expr
    else
      unexpected token
  | .identifier | .compare .is .byOption | .compare .is .matching | .compare .isNot .byOption
  | .compare .isNot .matching =>
    -- The word of an identity test is a name here; a question mark after it could not belong to a name.
    Scan.seek start
    name expr
  | _ => unexpected token

end VimScript.Expr
