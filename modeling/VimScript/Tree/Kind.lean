import VimScript.Invocation
import VimScript.Operator

/-!
The shapes of the syntax tree. `Kind α` is one node's content, with `α` in place of the nodes below it, so
that what concerns a single node can be said without recursion.
-/

set_option autoImplicit false

namespace VimScript

/-- Expressions written as one piece of text. -/
inductive Leaf where
  | number | blob | string | option | identifier | env | register | curlyPart
deriving DecidableEq, Repr

structure FunctionFlags where
  range : Bool := false
  abort : Bool := false
  dict : Bool := false
  closure : Bool := false
deriving DecidableEq, Repr

/-- What is assigned to: one target, or a list of them with an optional target for the rest. -/
structure Targets (α : Type) where
  single : Option α := none
  items : List α := []
  rest : Option α := none
deriving DecidableEq, Repr

inductive Kind (α : Type) where
  | script (body : List α)
  | comment (text : String)
  | command (inv : Invocation) (text : String)
  | function (inv : Invocation) (name : α) (params defaults : List α) (flags : FunctionFlags)
      (body : List α) (close : Option α)
  | closer (block : BlockSort) (inv : Invocation)
  | operand (verb : OperandVerb) (inv : Invocation) (value : α)
  | returnValue (inv : Invocation) (value : Option α)
  | assign (verb : AssignVerb) (inv : Invocation) (op : String) (single : Option α) (items : List α)
      (rest : Option α) (value : α)
  | unlet (inv : Invocation) (targets : List α)
  | lock (verb : LockVerb) (inv : Invocation) (depth : Option Nat) (targets : List α)
  | ifBlock (inv : Invocation) (cond : α) (body elseIfs : List α) (otherwise close : Option α)
  | elseIf (inv : Invocation) (cond : α) (body : List α)
  | elseBranch (inv : Invocation) (body : List α)
  | whileLoop (inv : Invocation) (cond : α) (body : List α) (close : Option α)
  | forLoop (inv : Invocation) (single : Option α) (items : List α) (rest : Option α) (values : α)
      (body : List α) (close : Option α)
  | jump (verb : Jump) (inv : Invocation)
  | tryBlock (inv : Invocation) (body catches : List α) (final close : Option α)
  | catchBranch (inv : Invocation) (pattern : Option String) (body : List α)
  | finallyBranch (inv : Invocation) (body : List α)
  | echo (verb : EchoVerb) (inv : Invocation) (values : List α)
  | echoHl (inv : Invocation) (text : String)
  | ternary (cond yes no : α)
  | binary (op : BinaryOp) (left right : α)
  | unary (op : UnaryOp) (operand : α)
  | subscript (left index : α)
  | slice (left : α) (lower upper : Option α)
  | method (left call : α)
  | call (callee : α) (args : List α)
  | dot (left name : α)
  | leaf (sort : Leaf) (text : String)
  | list (items : List α)
  | dict (entries : List (α × α))
  | curlyName (parts : List α)
  | curlyExpr (value : α)
  | lambda (params : List α) (body : α)
  | heredoc (options : List String) (marker : String) (lines : List String)
deriving DecidableEq, Repr

namespace Kind

variable {α β : Type}

/-- A content with every part replaced. -/
def map (f : α → β) : Kind α → Kind β
  | .script body => .script (body.map f)
  | .comment text => .comment text
  | .command inv text => .command inv text
  | .function inv name params defaults flags body close =>
    .function inv (f name) (params.map f) (defaults.map f) flags (body.map f) (close.map f)
  | .closer block inv => .closer block inv
  | .operand verb inv value => .operand verb inv (f value)
  | .returnValue inv value => .returnValue inv (value.map f)
  | .assign verb inv op single items rest value =>
    .assign verb inv op (single.map f) (items.map f) (rest.map f) (f value)
  | .unlet inv targets => .unlet inv (targets.map f)
  | .lock verb inv depth targets => .lock verb inv depth (targets.map f)
  | .ifBlock inv cond body elseIfs otherwise close =>
    .ifBlock inv (f cond) (body.map f) (elseIfs.map f) (otherwise.map f) (close.map f)
  | .elseIf inv cond body => .elseIf inv (f cond) (body.map f)
  | .elseBranch inv body => .elseBranch inv (body.map f)
  | .whileLoop inv cond body close => .whileLoop inv (f cond) (body.map f) (close.map f)
  | .forLoop inv single items rest values body close =>
    .forLoop inv (single.map f) (items.map f) (rest.map f) (f values) (body.map f) (close.map f)
  | .jump verb inv => .jump verb inv
  | .tryBlock inv body catches final close =>
    .tryBlock inv (body.map f) (catches.map f) (final.map f) (close.map f)
  | .catchBranch inv pattern body => .catchBranch inv pattern (body.map f)
  | .finallyBranch inv body => .finallyBranch inv (body.map f)
  | .echo verb inv values => .echo verb inv (values.map f)
  | .echoHl inv text => .echoHl inv text
  | .ternary cond yes no => .ternary (f cond) (f yes) (f no)
  | .binary op left right => .binary op (f left) (f right)
  | .unary op value => .unary op (f value)
  | .subscript left index => .subscript (f left) (f index)
  | .slice left lower upper => .slice (f left) (lower.map f) (upper.map f)
  | .method left right => .method (f left) (f right)
  | .call callee args => .call (f callee) (args.map f)
  | .dot left name => .dot (f left) (f name)
  | .leaf sort text => .leaf sort text
  | .list items => .list (items.map f)
  | .dict entries => .dict (entries.map fun (k, v) => (f k, f v))
  | .curlyName parts => .curlyName (parts.map f)
  | .curlyExpr value => .curlyExpr (f value)
  | .lambda params body => .lambda (params.map f) (f body)
  | .heredoc options marker lines => .heredoc options marker lines

/-- All nodes directly below a node, in the order its content lists them. -/
def children : Kind α → List α
  | .script body => body
  | .comment _ => []
  | .command _ _ => []
  | .function _ name params defaults _ body close => name :: params ++ defaults ++ body ++ close.toList
  | .closer _ _ => []
  | .operand _ _ value => [value]
  | .returnValue _ value => value.toList
  | .assign _ _ _ single items rest value => single.toList ++ items ++ rest.toList ++ [value]
  | .unlet _ targets => targets
  | .lock _ _ _ targets => targets
  | .ifBlock _ cond body elseIfs otherwise close =>
    cond :: body ++ elseIfs ++ otherwise.toList ++ close.toList
  | .elseIf _ cond body => cond :: body
  | .elseBranch _ body => body
  | .whileLoop _ cond body close => cond :: body ++ close.toList
  | .forLoop _ single items rest values body close =>
    single.toList ++ items ++ rest.toList ++ [values] ++ body ++ close.toList
  | .jump _ _ => []
  | .tryBlock _ body catches final close => body ++ catches ++ final.toList ++ close.toList
  | .catchBranch _ _ body => body
  | .finallyBranch _ body => body
  | .echo _ _ values => values
  | .echoHl _ _ => []
  | .ternary cond yes no => [cond, yes, no]
  | .binary _ left right => [left, right]
  | .unary _ value => [value]
  | .subscript left index => [left, index]
  | .slice left lower upper => left :: lower.toList ++ upper.toList
  | .method left right => [left, right]
  | .call callee args => callee :: args
  | .dot left name => [left, name]
  | .leaf _ _ => []
  | .list items => items
  | .dict entries => entries.flatMap fun (k, v) => [k, v]
  | .curlyName parts => parts
  | .curlyExpr value => [value]
  | .lambda params body => params ++ [body]
  | .heredoc _ _ _ => []

/-- What is known of the command of a statement; expressions, comments and the script have none. -/
def invocation? : Kind α → Option Invocation
  | .command inv _ | .function inv _ _ _ _ _ _ | .closer _ inv | .operand _ inv _ | .returnValue inv _
  | .assign _ inv _ _ _ _ _ | .unlet inv _ | .lock _ inv _ _ | .ifBlock inv _ _ _ _ _ | .elseIf inv _ _
  | .elseBranch inv _ | .whileLoop inv _ _ _ | .forLoop inv _ _ _ _ _ _ | .jump _ inv
  | .tryBlock inv _ _ _ _ | .catchBranch inv _ _ | .finallyBranch inv _ | .echo _ inv _
  | .echoHl inv _ => some inv
  | _ => none

/-- The statements of a block or a branch. -/
def body? : Kind α → Option (List α)
  | .script body | .function _ _ _ _ _ body _ | .ifBlock _ _ body _ _ _ | .elseIf _ _ body
  | .elseBranch _ body | .whileLoop _ _ body _ | .forLoop _ _ _ _ _ body _ | .tryBlock _ body _ _ _
  | .catchBranch _ _ body | .finallyBranch _ body => some body
  | _ => none

def leafText? : Kind α → Option String
  | .leaf _ text => some text
  | _ => none

-- Tagged here, their equations are made beside them and not again in every proof that unfolds them.
attribute [grind =] map children invocation?

end Kind

end VimScript
