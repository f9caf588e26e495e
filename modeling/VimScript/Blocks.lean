import VimScript.Tree

/-!
The blocks that are open at a point of a script. Statements enter the innermost one. A closing command
completes its block, and a branch of an `if` or a `try` is linked into its block when the next branch starts
or the block is closed.
-/

set_option autoImplicit false

namespace VimScript

namespace Kind

variable {α : Type}

/-- A block or branch with one more statement at its end; nothing else has statements. -/
def append? (statement : α) : Kind α → Option (Kind α)
  | .script body => some (.script (body ++ [statement]))
  | .function inv name params defaults flags body close =>
    some (.function inv name params defaults flags (body ++ [statement]) close)
  | .ifBlock inv cond body elseIfs otherwise close =>
    some (.ifBlock inv cond (body ++ [statement]) elseIfs otherwise close)
  | .elseIf inv cond body => some (.elseIf inv cond (body ++ [statement]))
  | .elseBranch inv body => some (.elseBranch inv (body ++ [statement]))
  | .whileLoop inv cond body close => some (.whileLoop inv cond (body ++ [statement]) close)
  | .forLoop inv single items rest values body close =>
    some (.forLoop inv single items rest values (body ++ [statement]) close)
  | .tryBlock inv body catches final close => some (.tryBlock inv (body ++ [statement]) catches final close)
  | .catchBranch inv pattern body => some (.catchBranch inv pattern (body ++ [statement]))
  | .finallyBranch inv body => some (.finallyBranch inv (body ++ [statement]))
  | _ => none

/-- An `if` or a `try` with a finished branch linked in, by the type of the branch. -/
def link? (branch : α) (type : NodeType) : Kind α → Option (Kind α)
  | .ifBlock inv cond body elseIfs otherwise close =>
    if type == .elseBranch then some (.ifBlock inv cond body elseIfs (some branch) close)
    else some (.ifBlock inv cond body (elseIfs ++ [branch]) otherwise close)
  | .tryBlock inv body catches final close =>
    if type == .finallyBranch then some (.tryBlock inv body catches (some branch) close)
    else some (.tryBlock inv body (catches ++ [branch]) final close)
  | _ => none

/-- A block with its closing command. -/
def closeWith (closer : α) : Kind α → Kind α
  | .function inv name params defaults flags body _ =>
    .function inv name params defaults flags body (some closer)
  | .ifBlock inv cond body elseIfs otherwise _ => .ifBlock inv cond body elseIfs otherwise (some closer)
  | .whileLoop inv cond body _ => .whileLoop inv cond body (some closer)
  | .forLoop inv single items rest values body _ =>
    .forLoop inv single items rest values body (some closer)
  | .tryBlock inv body catches final _ => .tryBlock inv body catches final (some closer)
  | kind => kind

end Kind

/-- The open blocks, the innermost first; the script itself is the last. -/
structure Blocks where
  stack : List Node

namespace Blocks

/-- The blocks at the start of a script. -/
def start (position : Position) : Blocks :=
  ⟨[.mk position (.script [])]⟩

/-- The type of the innermost open block or branch. -/
def innermost (b : Blocks) : NodeType :=
  match b.stack with
  | [] => .script
  | n :: _ => n.type

def anyOpen (b : Blocks) (p : NodeType → Bool) : Bool :=
  b.stack.any fun n => p n.type

def insideLoop (b : Blocks) : Bool :=
  b.anyOpen fun t => t == .whileLoop || t == .forLoop

def insideFunction (b : Blocks) : Bool :=
  b.anyOpen (· == .function)

/-- Adds a statement to the innermost block. -/
def add (statement : Node) (b : Blocks) : Blocks :=
  match b.stack with
  | .mk position kind :: outer =>
    match kind.append? statement with
    | some kind => ⟨.mk position kind :: outer⟩
    | none => b
  | [] => b

def push (block : Node) (b : Blocks) : Blocks :=
  ⟨block :: b.stack⟩

/-- Takes the innermost branch off and links it into the block around it. -/
def closeBranch (b : Blocks) : Blocks :=
  match b.stack with
  | branch :: .mk position kind :: outer =>
    match kind.link? branch branch.type with
    | some kind => ⟨.mk position kind :: outer⟩
    | none => ⟨.mk position kind :: outer⟩
  | _ => b

/-- Closes the innermost branch, if it is one rather than a block. -/
def leaveBranch (b : Blocks) : Blocks :=
  if b.innermost.isBranch then b.closeBranch else b

/-- Completes the innermost block and hands it to the block around it. -/
def closeBlock (closer : Node) (b : Blocks) : Blocks :=
  match b.stack with
  | .mk position kind :: outer => add (.mk position (kind.closeWith closer)) ⟨outer⟩
  | [] => b

/-- The block that is still open where a stretch of script ends: a function counts only at the end of all. -/
def missing? (b : Blocks) (stop : BlockEnd) : Option BlockSort :=
  match b.innermost.block?, stop with
  | some .function, .function => none
  | found, _ => found

end Blocks

/-- What a statement does to the open blocks. -/
inductive Edit where
  | add (statement : Node)
  | openBlock (block : Node)
  /-- Starts the next branch of the innermost block. -/
  | openBranch (branch : Node)
  | closeBlock (closer : Node)

namespace Blocks

def edit (b : Blocks) : Edit → Blocks
  | .add statement => b.add statement
  | .openBlock block => b.push block
  | .openBranch branch => b.leaveBranch.push branch
  | .closeBlock closer => b.leaveBranch.closeBlock closer

def editAll (b : Blocks) (edits : List Edit) : Blocks :=
  edits.foldl edit b

@[simp] theorem editAll_nil (b : Blocks) : b.editAll [] = b := rfl

@[simp] theorem editAll_cons (b : Blocks) (e : Edit) (edits : List Edit) :
    b.editAll (e :: edits) = (b.edit e).editAll edits := rfl

theorem editAll_append (b : Blocks) (xs ys : List Edit) :
    b.editAll (xs ++ ys) = (b.editAll xs).editAll ys := by
  simp [editAll]

/-- The script as a node of its own, taken off the stack. -/
def script? (b : Blocks) : Option Node :=
  b.stack.head?.map fun n => .mk .origin n.kind

end Blocks

end VimScript
