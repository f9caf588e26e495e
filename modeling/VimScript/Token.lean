import VimScript.Operator
import VimScript.Position

/-!
The tokens of expressions.
-/

set_option autoImplicit false

namespace VimScript

inductive TokenKind where
  | eof | eol | orOr | andAnd
  | compare (test : Comparison) (mode : CaseMode)
  | plus | minus | dot | star | slash | percent | not | question | colon
  | parenOpen | parenClose | bracketOpen | bracketClose | braceOpen | braceClose | comma
  | number | singleQuote | doubleQuote | option | identifier | env | register
  | assign | bar | semicolon | backtick | ellipsis | sharp | arrow | blob | literalBraceOpen | dotDot
deriving DecidableEq, Repr

namespace TokenKind

/-- The number some diagnostics give for a kind of token. The third number is not in use. -/
def code : TokenKind → Nat
  | .eof => 1
  | .eol => 2
  | .orOr => 4
  | .andAnd => 5
  | .compare test mode => 6 + 3 * test.index + mode.index
  | .plus => 36
  | .minus => 37
  | .dot => 38
  | .star => 39
  | .slash => 40
  | .percent => 41
  | .not => 42
  | .question => 43
  | .colon => 44
  | .parenOpen => 45
  | .parenClose => 46
  | .bracketOpen => 47
  | .bracketClose => 48
  | .braceOpen => 49
  | .braceClose => 50
  | .comma => 51
  | .number => 52
  | .singleQuote => 53
  | .doubleQuote => 54
  | .option => 55
  | .identifier => 56
  | .env => 57
  | .register => 58
  | .assign => 59
  | .bar => 60
  | .semicolon => 61
  | .backtick => 62
  | .ellipsis => 63
  | .sharp => 64
  | .arrow => 65
  | .blob => 66
  | .literalBraceOpen => 67
  | .dotDot => 68

/-- The binary operator a token of this kind stands for between two operands of a comparison. -/
def comparison? : TokenKind → Option BinaryOp
  | .compare test mode => some (.compare test mode)
  | _ => none

def additive? : TokenKind → Option BinaryOp
  | .plus => some .add
  | .minus => some .subtract
  | .dot | .dotDot => some .concat
  | _ => none

def multiplicative? : TokenKind → Option BinaryOp
  | .star => some .multiply
  | .slash => some .divide
  | .percent => some .remainder
  | _ => none

def disjunction? : TokenKind → Option BinaryOp
  | .orOr => some .or
  | _ => none

def conjunction? : TokenKind → Option BinaryOp
  | .andAnd => some .and
  | _ => none

def unary? : TokenKind → Option UnaryOp
  | .not => some .not
  | .minus => some .minus
  | .plus => some .plus
  | _ => none

end TokenKind

structure Token where
  kind : TokenKind
  /-- The text of the token; ends of line and of input have a name in angle brackets instead. -/
  value : String
  position : Position
deriving DecidableEq, Repr

end VimScript
