import VimScript.Expr.Name

/-!
What may follow an operand: subscripts and slices, member access, calls and methods. All of them take the
reader of whole expressions as an argument.
-/

set_option autoImplicit false

namespace VimScript.Expr

/-- The most arguments a call may have. -/
def maxArguments : Nat := 20

/-- The rest of a subscript or slice after its bracket; either bound of a slice may be left out. -/
def index (expr : Scan Node) (left : Node) (position : Position) : Scan Node := do
  let lower ← (do
    if (← Token.peek).kind == .colon then return none
    else some <$> expr)
  let isSlice := (← Token.peek).kind == .colon
  match lower, isSlice with
  | some value, false =>
    let close ← Token.next
    if close.kind != .bracketClose then unexpected close
    return .mk position (.subscript left value)
  | _, _ =>
    let _ ← Token.next
    let upper ← (do
      if (← Token.peek).kind == .bracketClose then return none
      else some <$> expr)
    let close ← Token.next
    if close.kind != .bracketClose then unexpected close
    return .mk position (.slice left lower upper)

/-- The arguments of a call after its parenthesis, with the last token read. A comma may stand at the end. -/
def argumentList (expr : Scan Node) : Scan (List Node × Token) := do
  let first ← Token.peek
  if first.kind == .parenClose then
    let _ ← Token.next
    return ([], first)
  else
    Scan.loop [] fun args => do
      let arg ← expr
      let args := args ++ [arg]
      let token ← Token.next
      match token.kind with
      | .comma =>
        if (← Token.peek).kind == .parenClose then
          let _ ← Token.next
          return .done (args, token)
        else
          return .again args
      | .parenClose => return .done (args, token)
      | _ => unexpected token

def arguments (expr : Scan Node) : Scan (List Node) := do
  let (args, last) ← argumentList expr
  if args.length > maxArguments then
    Scan.fail .tooManyArguments last.position
  return args

/-- Whether a dot after a node can select a member of it. -/
def hasMembers (n : Node) : Bool :=
  match n.type with
  | .leaf .identifier | .curlyName | .dict | .subscript | .call | .dot => true
  | _ => false

/-- The member selected by a dot. There is none where the dot has to be read as concatenation: after other
operands, or before a name that is more than a word. -/
def member (left : Node) (position : Position) : Scan (Option Node) := do
  if hasMembers left && CharClass.word.hasOpt (← Scan.peek) then
    let namePosition ← Scan.here
    let name ← Scan.takeClass .word
    if CharClass.name.hasOpt (← Scan.peek) then
      return none
    else
      return some (.mk position (.dot left (.identifier name namePosition)))
  else
    return none

/-- A method call: the receiver, then a callee and its arguments, all reported at the parenthesis. -/
def method (expr primary : Scan Node) (left : Node) : Scan Node := do
  let callee ← primary
  let paren ← Token.next
  if paren.kind != .parenOpen then
    Scan.fail .methodWithoutCall paren.position
  let args ← arguments expr
  return .mk paren.position (.method left (.mk paren.position (.call callee args)))

/-- An operand and all that follows it. Brackets and dots count only directly after it. -/
def postfixed (expr primary : Scan Node) : Scan Node := do
  let first ← primary
  Scan.loop first fun left => do
    let start ← Scan.tell
    let adjacent := !CharClass.white.hasOpt (← Scan.peek)
    let token ← Token.next
    match token.kind, adjacent with
    | .bracketOpen, true => return .again (← index expr left token.position)
    | .arrow, _ => return .again (← method expr primary left)
    | .parenOpen, _ =>
      let args ← arguments expr
      return .again (.mk token.position (.call left args))
    | .dot, true =>
      match ← member left token.position with
      | some node => return .again node
      | none =>
        Scan.seek start
        return .done left
    | _, _ =>
      Scan.seek start
      return .done left

end VimScript.Expr
