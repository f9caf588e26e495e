import Mathlib.Data.Nat.Init
import VimScript.Expr
import VimScript.Proofs.Token.Text

/-!
The levels of precedence on a known text: an operand followed by a token that a level has no use for is all that the
level reads, and an operator of the level goes between two operands of the next one.
-/

set_option autoImplicit false

namespace VimScript.Expr

variable {expr operand primary : Scan Node} {s : Source} {i j k m : Nat} {n l r : Node} {token last : Token}
  {op : BinaryOp}

/-! ### One level -/

theorem chain_of_operand {operator : TokenKind → Option BinaryOp} (read : operand s i = .ok n j)
    (next : Token.next s j = .ok token k) (other : operator token.kind = none) :
    chain operator operand s i = .ok n j := by
  simp only [chain, Scan.bind_of_ok read]
  refine Scan.loop_of_done ?_
  simp only [Scan.bind_of_ok (Scan.tell_apply s j), Scan.bind_of_ok next, other]
  rfl

theorem chain_of_pair {operator : TokenKind → Option BinaryOp} (left : operand s i = .ok l j)
    (sign : Token.next s j = .ok token k) (found : operator token.kind = some op) (right : operand s k = .ok r m)
    {e : Nat} (next : Token.next s m = .ok last e) (other : operator last.kind = none) :
    chain operator operand s i = .ok (.mk token.position (.binary op l r)) m := by
  simp only [chain, Scan.bind_of_ok left]
  refine Scan.loop_of_again (k := m) (.mk token.position (.binary op l r)) ?_ ?_
  · simp only [Scan.bind_of_ok (Scan.tell_apply s j), Scan.bind_of_ok sign, found, Scan.bind_of_ok right]
    rfl
  · simp only [Scan.bind_of_ok (Scan.tell_apply s m), Scan.bind_of_ok next, other]
    rfl

theorem comparison_of_operand (read : operand s i = .ok n j) (next : Token.next s j = .ok token k)
    (other : token.kind.comparison? = none) : comparison operand s i = .ok n j := by
  simp only [comparison, Scan.bind_of_ok read, Scan.bind_of_ok (Scan.tell_apply s j), Scan.bind_of_ok next, other]
  rfl

theorem comparison_of_pair (left : operand s i = .ok l j) (sign : Token.next s j = .ok token k)
    (found : token.kind.comparison? = some op) (right : operand s k = .ok r m) :
    comparison operand s i = .ok (.mk token.position (.binary op l r)) m := by
  simp only [comparison, Scan.bind_of_ok left, Scan.bind_of_ok (Scan.tell_apply s j), Scan.bind_of_ok sign, found,
    Scan.bind_of_ok right]
  rfl

/-- What the token after an operand makes of it. -/
def postfixPart (expr primary : Scan Node) (left : Node) (start : Nat) (token : Token) (adjacent : Bool) :
    Scan (Scan.Turn Node Node) := do
  match token.kind, adjacent with
  | .bracketOpen, true => return .again (← index expr left token.position)
  | .arrow, _ => return .again (← method expr primary left)
  | .parenOpen, _ =>
    let args ← arguments expr
    return .again (.mk token.position (.call left args))
  | .dot, true =>
    match ← member left token.position with
    | some node => return .again node
    | none =>
      Scan.seek start
      return .done left
  | _, _ =>
    Scan.seek start
    return .done left

def postfixTurn (expr primary : Scan Node) (left : Node) : Scan (Scan.Turn Node Node) := do
  let start ← Scan.tell
  let adjacent := !CharClass.white.hasOpt (← Scan.peek)
  let token ← Token.next
  postfixPart expr primary left start token adjacent

theorem postfixed_eq (expr primary : Scan Node) :
    postfixed expr primary = (do Scan.loop (← primary) (postfixTurn expr primary)) := rfl

/-- The unary operators before an operand, the last one first. -/
def signs : Scan (List (UnaryOp × Position)) :=
  Scan.loop [] fun ops => do
    let start ← Scan.tell
    let token ← Token.next
    match token.kind.unary? with
    | some op => return .again ((op, token.position) :: ops)
    | none =>
      Scan.seek start
      return .done ops

theorem prefixed_eq (operand : Scan Node) :
    prefixed operand = (do
      let ops ← signs
      let value ← operand
      return ops.foldl (fun inner (op, position) => .mk position (.unary op inner)) value) := rfl

theorem signs_of_none (first : Token.next s i = .ok token k) (plain : token.kind.unary? = none) :
    signs s i = .ok [] i := by
  refine Scan.loop_of_done ?_
  simp only [Scan.bind_of_ok (Scan.tell_apply s i), Scan.bind_of_ok first, plain]
  rfl

theorem prefixed_of_operand (first : Token.next s i = .ok token k) (plain : token.kind.unary? = none)
    (read : operand s i = .ok n j) : prefixed operand s i = .ok n j := by
  simp only [prefixed_eq, Scan.bind_of_ok (signs_of_none first plain), Scan.bind_of_ok read]
  rfl

theorem prefixed_of_sign {op : UnaryOp} (sign : Token.next s i = .ok token k)
    (found : token.kind.unary? = some op) (first : Token.next s k = .ok last m) (plain : last.kind.unary? = none)
    (read : operand s k = .ok n j) :
    prefixed operand s i = .ok (.mk token.position (.unary op n)) j := by
  have one : signs s i = .ok [(op, token.position)] k := by
    refine Scan.loop_of_again (k := k) [(op, token.position)] ?_ ?_
    · simp only [Scan.bind_of_ok (Scan.tell_apply s i), Scan.bind_of_ok sign, found]
      rfl
    · simp only [Scan.bind_of_ok (Scan.tell_apply s k), Scan.bind_of_ok first, plain]
      rfl
  simp only [prefixed_eq, Scan.bind_of_ok one, Scan.bind_of_ok read]
  rfl

theorem ternary_of_operand (read : operand s i = .ok n j) (next : Token.next s j = .ok token k)
    (other : token.kind ≠ .question) : ternary expr operand s i = .ok n j := by
  have noQuestion : (token.kind == .question) = false := by simpa using other
  simp only [ternary, Scan.bind_of_ok read, Scan.bind_of_ok (Scan.tell_apply s j), Scan.bind_of_ok next, noQuestion]
  rfl

theorem ternary_of_branches {colon : Token} {yes no : Node} {a b c : Nat} (cond : operand s i = .ok n j)
    (question : Token.next s j = .ok token k) (isQuestion : token.kind = .question) (first : expr s k = .ok yes a)
    (next : Token.next s a = .ok colon b) (isColon : colon.kind = .colon) (second : expr s b = .ok no c) :
    ternary expr operand s i = .ok (.mk token.position (.ternary n yes no)) c := by
  have colons : (colon.kind != .colon) = false := by simp [isColon]
  simp only [ternary, Scan.bind_of_ok cond, Scan.bind_of_ok (Scan.tell_apply s j), Scan.bind_of_ok question,
    isQuestion, beq_self_eq_true, if_true, Scan.bind_of_ok first, Scan.bind_of_ok next, colons,
    Bool.false_eq_true, if_false, Scan.bind_of_ok second]
  rfl

/-! ### The levels of binary operators, the tightest first -/

def tier (expr : Scan Node) : Nat → Scan Node
  | 0 => prefixed (postfixed expr (Expr.primary expr))
  | 1 => product expr
  | 2 => sum expr
  | 3 => comparison (sum expr)
  | 4 => conjunction expr
  | _ => disjunction expr

/-- The operators of the level above a given one. -/
def operatorAbove : Nat → TokenKind → Option BinaryOp
  | 0 => TokenKind.multiplicative?
  | 1 => TokenKind.additive?
  | 2 => TokenKind.comparison?
  | 3 => TokenKind.conjunction?
  | 4 => TokenKind.disjunction?
  | _ => fun _ => none

theorem tier_of_operand (level : Nat) (read : tier expr level s i = .ok n j) (next : Token.next s j = .ok token k)
    (other : operatorAbove level token.kind = none) : tier expr (level + 1) s i = .ok n j := by
  match level with
  | 0 => exact chain_of_operand read next other
  | 1 => exact chain_of_operand read next other
  | 2 => exact comparison_of_operand read next other
  | 3 => exact chain_of_operand read next other
  | 4 => exact chain_of_operand read next other
  | _ + 5 => exact read

theorem tier_of_pair (level : Nat) (left : tier expr level s i = .ok l j) (sign : Token.next s j = .ok token k)
    (found : operatorAbove level token.kind = some op) (right : tier expr level s k = .ok r m) {e : Nat}
    (next : Token.next s m = .ok last e) (other : operatorAbove level last.kind = none) :
    tier expr (level + 1) s i = .ok (.mk token.position (.binary op l r)) m := by
  match level with
  | 0 => exact chain_of_pair left sign found right next other
  | 1 => exact chain_of_pair left sign found right next other
  | 2 => exact comparison_of_pair left sign found right
  | 3 => exact chain_of_pair left sign found right next other
  | 4 => exact chain_of_pair left sign found right next other
  | _ + 5 => simp [operatorAbove] at found

theorem tier_of_tighter {low high : Nat} (order : low ≤ high) (read : tier expr low s i = .ok n j)
    (next : Token.next s j = .ok token k)
    (other : ∀ level, low ≤ level → level < high → operatorAbove level token.kind = none) :
    tier expr high s i = .ok n j := by
  induction high, order using Nat.le_induction with
  | base => exact read
  | succ high order ih =>
    have inner := ih fun level above below => other level above (by omega)
    exact tier_of_operand high inner next (other high order (by omega))

end VimScript.Expr
