import VimScript.Expr.Primary

/-!
Expressions. Each level of precedence is read by means of the next one; a level that finds no operator of its
own puts the cursor back to where its last operand ended. All nesting goes through `nested`, whose depth is
bounded by the length of the buffer, since every nested expression starts behind a character of its own.
-/

set_option autoImplicit false

namespace VimScript.Expr

/-- A chain of operands under operators of one level, grouped to the left. -/
def chain (operator : TokenKind → Option BinaryOp) (operand : Scan Node) : Scan Node := do
  let first ← operand
  Scan.loop first fun left => do
    let start ← Scan.tell
    let token ← Token.next
    match operator token.kind with
    | some op =>
      let right ← operand
      return .again (.mk token.position (.binary op left right))
    | none =>
      Scan.seek start
      return .done left

/-- At most one comparison: `a < b < c` ends before the second sign. -/
def comparison (operand : Scan Node) : Scan Node := do
  let left ← operand
  let start ← Scan.tell
  let token ← Token.next
  match token.kind.comparison? with
  | some op =>
    let right ← operand
    return .mk token.position (.binary op left right)
  | none =>
    Scan.seek start
    return left

/-- An operand under the unary operators before it; the last one read binds first. -/
def prefixed (operand : Scan Node) : Scan Node := do
  let ops ← Scan.loop [] fun ops => do
    let start ← Scan.tell
    let token ← Token.next
    match token.kind.unary? with
    | some op => return .again ((op, token.position) :: ops)
    | none =>
      Scan.seek start
      return .done ops
  let value ← operand
  return ops.foldl (fun inner (op, position) => .mk position (.unary op inner)) value

def ternary (expr operand : Scan Node) : Scan Node := do
  let cond ← operand
  let start ← Scan.tell
  let token ← Token.next
  if token.kind == .question then
    let yes ← expr
    let colon ← Token.next
    if colon.kind != .colon then unexpected colon
    let no ← expr
    return .mk token.position (.ternary cond yes no)
  else
    Scan.seek start
    return cond

def product (expr : Scan Node) : Scan Node :=
  chain TokenKind.multiplicative? (prefixed (postfixed expr (primary expr)))

def sum (expr : Scan Node) : Scan Node :=
  chain TokenKind.additive? (product expr)

def conjunction (expr : Scan Node) : Scan Node :=
  chain TokenKind.conjunction? (comparison (sum expr))

def disjunction (expr : Scan Node) : Scan Node :=
  chain TokenKind.disjunction? (conjunction expr)

/-- All levels, given a reader for the expressions inside. -/
def level (expr : Scan Node) : Scan Node :=
  ternary expr (disjunction expr)

/-- Expressions nested to a bounded depth. -/
def nested : Nat → Scan Node
  | 0 => fun _ _ => .spent
  | depth + 1 => level (nested depth)

/-- The expression at the cursor; what follows it is left alone. -/
def read : Scan Node :=
  fun s i => nested (s.size + 1) s i

/-- The expression a line starts with. -/
def ofLine (line : String) : Reply Node :=
  read (.ofLines [line]) 0

end VimScript.Expr
