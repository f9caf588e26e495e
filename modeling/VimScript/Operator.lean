/-!
The operators of expressions. Every comparison exists in three forms: one that follows the 'ignorecase'
option, one that ignores case and one that matches it.
-/

set_option autoImplicit false

namespace VimScript

inductive Comparison where
  | equal | notEqual | greater | greaterEqual | smaller | smallerEqual | matches | noMatch | is | isNot
deriving DecidableEq, Repr

inductive CaseMode where
  | byOption | ignoring | matching
deriving DecidableEq, Repr

namespace Comparison

def lexeme : Comparison → String
  | .equal => "=="
  | .notEqual => "!="
  | .greater => ">"
  | .greaterEqual => ">="
  | .smaller => "<"
  | .smallerEqual => "<="
  | .matches => "=~"
  | .noMatch => "!~"
  | .is => "is"
  | .isNot => "isnot"

def index : Comparison → Nat
  | .equal => 0
  | .notEqual => 1
  | .greater => 2
  | .greaterEqual => 3
  | .smaller => 4
  | .smallerEqual => 5
  | .matches => 6
  | .noMatch => 7
  | .is => 8
  | .isNot => 9

def all : List Comparison :=
  [.equal, .notEqual, .greater, .greaterEqual, .smaller, .smallerEqual, .matches, .noMatch, .is, .isNot]

theorem mem_all (c : Comparison) : c ∈ all := by
  cases c <;> decide

end Comparison

namespace CaseMode

def suffix : CaseMode → String
  | .byOption => ""
  | .ignoring => "?"
  | .matching => "#"

def index : CaseMode → Nat
  | .byOption => 0
  | .ignoring => 1
  | .matching => 2

def all : List CaseMode :=
  [.byOption, .ignoring, .matching]

theorem mem_all (m : CaseMode) : m ∈ all := by
  cases m <;> decide

end CaseMode

inductive BinaryOp where
  | or | and
  | compare (test : Comparison) (mode : CaseMode)
  | add | subtract | concat | multiply | divide | remainder
deriving DecidableEq, Repr

namespace BinaryOp

/-- The operator as the fingerprint writes it. -/
def symbol : BinaryOp → String
  | .or => "||"
  | .and => "&&"
  | .compare test mode => test.lexeme ++ mode.suffix
  | .add => "+"
  | .subtract => "-"
  | .concat => "concat"
  | .multiply => "*"
  | .divide => "/"
  | .remainder => "%"

def comparisons : List BinaryOp :=
  Comparison.all.flatMap fun test => CaseMode.all.map fun mode => .compare test mode

def all : List BinaryOp :=
  ([.or, .and] : List BinaryOp) ++ comparisons ++
    ([.add, .subtract, .concat, .multiply, .divide, .remainder] : List BinaryOp)

theorem mem_all (op : BinaryOp) : op ∈ all := by
  cases op with
  | compare test mode => cases test <;> cases mode <;> decide
  | _ => decide

/-- No two operators are written alike. -/
theorem symbol_injective {a b : BinaryOp} (h : a.symbol = b.symbol) : a = b := by
  have table : ∀ x ∈ all, ∀ y ∈ all, x.symbol = y.symbol → x = y := by decide +kernel
  exact table a (mem_all a) b (mem_all b) h

end BinaryOp

inductive UnaryOp where
  | not | minus | plus
deriving DecidableEq, Repr

namespace UnaryOp

def symbol : UnaryOp → String
  | .not => "!"
  | .minus => "-"
  | .plus => "+"

def all : List UnaryOp :=
  [.not, .minus, .plus]

end UnaryOp

end VimScript
