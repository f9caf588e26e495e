import VimScript.Tree.Kind

/-!
The types of nodes. Operators, closing commands and the other families of like-shaped nodes have a type for
each member. Every type has a number and a name.
-/

set_option autoImplicit false

namespace VimScript

inductive NodeType where
  | script | comment | command | function
  | closer (block : BlockSort)
  | operand (verb : OperandVerb)
  | returnValue
  | assign (verb : AssignVerb)
  | unlet
  | lock (verb : LockVerb)
  | ifBlock | elseIf | elseBranch | whileLoop | forLoop
  | jump (verb : Jump)
  | tryBlock | catchBranch | finallyBranch
  | echo (verb : EchoVerb)
  | echoHl | ternary
  | binary (op : BinaryOp)
  | unary (op : UnaryOp)
  | subscript | slice | call | dot
  | leaf (sort : Leaf)
  | list | dict | curlyName | curlyExpr | lambda | heredoc | method
deriving DecidableEq, Repr

namespace NodeType

def number : NodeType → Nat
  | .script => 1
  | .comment => 2
  | .command => 3
  | .function => 4
  | .closer .function => 5
  | .operand .delFunction => 6
  | .returnValue => 7
  | .operand .call => 8
  | .assign .letVar => 9
  | .unlet => 10
  | .lock .lock => 11
  | .lock .unlock => 12
  | .ifBlock => 13
  | .elseIf => 14
  | .elseBranch => 15
  | .closer .ifBlock => 16
  | .whileLoop => 17
  | .closer .whileLoop => 18
  | .forLoop => 19
  | .closer .forLoop => 20
  | .jump .restart => 21
  | .jump .leave => 22
  | .tryBlock => 23
  | .catchBranch => 24
  | .finallyBranch => 25
  | .closer .tryBlock => 26
  | .operand .throw => 27
  | .echo .echo => 28
  | .echo .echon => 29
  | .echoHl => 30
  | .echo .echoMsg => 31
  | .echo .echoErr => 32
  | .echo .execute => 33
  | .ternary => 34
  | .binary .or => 35
  | .binary .and => 36
  | .binary (.compare test mode) => 37 + 3 * test.index + mode.index
  | .binary .add => 67
  | .binary .subtract => 68
  | .binary .concat => 69
  | .binary .multiply => 70
  | .binary .divide => 71
  | .binary .remainder => 72
  | .unary .not => 73
  | .unary .minus => 74
  | .unary .plus => 75
  | .subscript => 76
  | .slice => 77
  | .call => 78
  | .dot => 79
  | .leaf .number => 80
  | .leaf .string => 81
  | .list => 82
  | .dict => 83
  | .leaf .option => 85
  | .leaf .identifier => 86
  | .curlyName => 87
  | .leaf .env => 88
  | .leaf .register => 89
  | .leaf .curlyPart => 90
  | .curlyExpr => 91
  | .lambda => 92
  | .leaf .blob => 93
  | .assign .const => 94
  | .operand .eval => 95
  | .heredoc => 96
  | .method => 97

def comparisonTag : Comparison → String
  | .equal => "Equal"
  | .notEqual => "NEqual"
  | .greater => "Greater"
  | .greaterEqual => "GEqual"
  | .smaller => "Smaller"
  | .smallerEqual => "SEqual"
  | .matches => "Match"
  | .noMatch => "NoMatch"
  | .is => "Is"
  | .isNot => "IsNot"

def caseTag : CaseMode → String
  | .byOption => ""
  | .ignoring => "Ci"
  | .matching => "Cs"

def binaryTag : BinaryOp → String
  | .or => "Or"
  | .and => "And"
  | .compare test mode => comparisonTag test ++ caseTag mode
  | .add => "Add"
  | .subtract => "Subtract"
  | .concat => "Concat"
  | .multiply => "Multiply"
  | .divide => "Divide"
  | .remainder => "Remainder"

def unaryTag : UnaryOp → String
  | .not => "Not"
  | .minus => "Minus"
  | .plus => "Plus"

def echoTag : EchoVerb → String
  | .echo => "Echo"
  | .echon => "Echon"
  | .echoMsg => "EchoMsg"
  | .echoErr => "EchoErr"
  | .execute => "Execute"

/-- The name of a type in mixed case. -/
def tag : NodeType → String
  | .script => "TopLevel"
  | .comment => "Comment"
  | .command => "ExCmd"
  | .function => "Function"
  | .closer .function => "EndFunction"
  | .closer .ifBlock => "EndIf"
  | .closer .whileLoop => "EndWhile"
  | .closer .forLoop => "EndFor"
  | .closer .tryBlock => "EndTry"
  | .operand .delFunction => "DelFunction"
  | .operand .call => "ExCall"
  | .operand .eval => "Eval"
  | .operand .throw => "Throw"
  | .returnValue => "Return"
  | .assign .letVar => "Let"
  | .assign .const => "Const"
  | .unlet => "Unlet"
  | .lock .lock => "LockVar"
  | .lock .unlock => "UnlockVar"
  | .ifBlock => "If"
  | .elseIf => "ElseIf"
  | .elseBranch => "Else"
  | .whileLoop => "While"
  | .forLoop => "For"
  | .jump .leave => "Break"
  | .jump .restart => "Continue"
  | .tryBlock => "Try"
  | .catchBranch => "Catch"
  | .finallyBranch => "Finally"
  | .echo verb => echoTag verb
  | .echoHl => "EchoHl"
  | .ternary => "Ternary"
  | .binary op => binaryTag op
  | .unary op => unaryTag op
  | .subscript => "Subscript"
  | .slice => "Slice"
  | .call => "Call"
  | .dot => "Dot"
  | .leaf .number => "Number"
  | .leaf .blob => "Blob"
  | .leaf .string => "String"
  | .leaf .option => "Option"
  | .leaf .identifier => "Identifier"
  | .leaf .env => "Env"
  | .leaf .register => "Reg"
  | .leaf .curlyPart => "CurlyNamePart"
  | .list => "List"
  | .dict => "Dict"
  | .curlyName => "CurlyName"
  | .curlyExpr => "CurlyNameExpr"
  | .lambda => "Lambda"
  | .heredoc => "Heredoc"
  | .method => "Method"

/-- The name of a type in capitals. -/
def name (t : NodeType) : String :=
  String.ofList (t.tag.toList.map Char.toUpper)

/-- All types, by number. -/
def all : List NodeType :=
  ([.script, .comment, .command, .function, .closer .function, .operand .delFunction, .returnValue,
    .operand .call, .assign .letVar, .unlet, .lock .lock, .lock .unlock, .ifBlock, .elseIf, .elseBranch,
    .closer .ifBlock, .whileLoop, .closer .whileLoop, .forLoop, .closer .forLoop, .jump .restart,
    .jump .leave, .tryBlock, .catchBranch, .finallyBranch, .closer .tryBlock, .operand .throw,
    .echo .echo, .echo .echon, .echoHl, .echo .echoMsg, .echo .echoErr, .echo .execute, .ternary] : List NodeType) ++
  BinaryOp.all.map NodeType.binary ++ UnaryOp.all.map NodeType.unary ++
  ([.subscript, .slice, .call, .dot, .leaf .number, .leaf .string, .list, .dict, .leaf .option,
    .leaf .identifier, .curlyName, .leaf .env, .leaf .register, .leaf .curlyPart, .curlyExpr, .lambda,
    .leaf .blob, .assign .const, .operand .eval, .heredoc, .method] : List NodeType)

def ofName? (s : String) : Option NodeType :=
  all.find? (·.name == s)

/-- The numbers run in order, with one left out. -/
theorem map_number_all : all.map number = List.range' 1 83 ++ List.range' 85 13 := by
  decide

/-- The type of a block, as opposed to the types of its branches and of single statements. -/
def ofBlock : BlockSort → NodeType
  | .function => .function
  | .ifBlock => .ifBlock
  | .whileLoop => .whileLoop
  | .forLoop => .forLoop
  | .tryBlock => .tryBlock

/-- The block a type belongs to, as its opening, a branch of it or neither. -/
def block? : NodeType → Option BlockSort
  | .function => some .function
  | .ifBlock | .elseIf | .elseBranch => some .ifBlock
  | .whileLoop => some .whileLoop
  | .forLoop => some .forLoop
  | .tryBlock | .catchBranch | .finallyBranch => some .tryBlock
  | _ => none

def isBranch : NodeType → Bool
  | .elseIf | .elseBranch | .catchBranch | .finallyBranch => true
  | _ => false

attribute [grind =] block? isBranch

end NodeType

namespace Kind

variable {α : Type}

def nodeType : Kind α → NodeType
  | .script _ => .script
  | .comment _ => .comment
  | .command _ _ => .command
  | .function _ _ _ _ _ _ _ => .function
  | .closer block _ => .closer block
  | .operand verb _ _ => .operand verb
  | .returnValue _ _ => .returnValue
  | .assign verb _ _ _ _ _ _ => .assign verb
  | .unlet _ _ => .unlet
  | .lock verb _ _ _ => .lock verb
  | .ifBlock _ _ _ _ _ _ => .ifBlock
  | .elseIf _ _ _ => .elseIf
  | .elseBranch _ _ => .elseBranch
  | .whileLoop _ _ _ _ => .whileLoop
  | .forLoop _ _ _ _ _ _ _ => .forLoop
  | .jump verb _ => .jump verb
  | .tryBlock _ _ _ _ _ => .tryBlock
  | .catchBranch _ _ _ => .catchBranch
  | .finallyBranch _ _ => .finallyBranch
  | .echo verb _ _ => .echo verb
  | .echoHl _ _ => .echoHl
  | .ternary _ _ _ => .ternary
  | .binary op _ _ => .binary op
  | .unary op _ => .unary op
  | .subscript _ _ => .subscript
  | .slice _ _ _ => .slice
  | .method _ _ => .method
  | .call _ _ => .call
  | .dot _ _ => .dot
  | .leaf sort _ => .leaf sort
  | .list _ => .list
  | .dict _ => .dict
  | .curlyName _ => .curlyName
  | .curlyExpr _ => .curlyExpr
  | .lambda _ _ => .lambda
  | .heredoc _ _ _ => .heredoc

attribute [grind =] nodeType

end Kind

end VimScript
