import VimScript.Tree.NodeType

/-!
The grammar of blocks: the lines it is about, the trees it derives and the scripts that have a derivation.
-/

set_option autoImplicit false

namespace VimScript

/-- One line for each thing that a line can do to the open blocks. -/
inductive Line where
  | opener (block : BlockSort)
  | closer (block : BlockSort)
  | elseIf | elseBranch | catchBranch | finallyBranch
  | jump (verb : Jump)
  | returnValue
  | echo
deriving DecidableEq, Repr

namespace Line

def text : Line → String
  | .opener .ifBlock => "if 1"
  | .opener .whileLoop => "while 1"
  | .opener .forLoop => "for x in y"
  | .opener .tryBlock => "try"
  | .opener .function => "function F()"
  | .closer .ifBlock => "endif"
  | .closer .whileLoop => "endwhile"
  | .closer .forLoop => "endfor"
  | .closer .tryBlock => "endtry"
  | .closer .function => "endfunction"
  | .elseIf => "elseif 1"
  | .elseBranch => "else"
  | .catchBranch => "catch"
  | .finallyBranch => "finally"
  | .jump .leave => "break"
  | .jump .restart => "continue"
  | .returnValue => "return"
  | .echo => "echo 1"

/-- The type of the node a line is read as. -/
def type : Line → NodeType
  | .opener block => .ofBlock block
  | .closer block => .closer block
  | .elseIf => .elseIf
  | .elseBranch => .elseBranch
  | .catchBranch => .catchBranch
  | .finallyBranch => .finallyBranch
  | .jump verb => .jump verb
  | .returnValue => .returnValue
  | .echo => .echo .echo

def all : List Line :=
  [.opener .function, .opener .ifBlock, .opener .whileLoop, .opener .forLoop, .opener .tryBlock, .closer .function,
    .closer .ifBlock, .closer .whileLoop, .closer .forLoop, .closer .tryBlock, .elseIf, .elseBranch, .catchBranch,
    .finallyBranch, .jump .leave, .jump .restart, .returnValue, .echo]

theorem mem_all (line : Line) : line ∈ all := by
  cases line with
  | opener block => cases block <;> decide
  | closer block => cases block <;> decide
  | jump verb => cases verb <;> decide
  | _ => decide

/-- No two lines are read as nodes of one type. -/
theorem type_injective {a b : Line} (h : a.type = b.type) : a = b := by
  have table : ∀ x ∈ all, ∀ y ∈ all, x.type = y.type → x = y := by decide
  exact table a (mem_all a) b (mem_all b) h

end Line

/-! ### Outlines -/

/-- The types of a node and of what is in its slots, which are its statements, branches and closing command. -/
inductive Outline where
  | node (type : NodeType) (inner : List Outline)

namespace Outline

def type : Outline → NodeType
  | .node type _ => type

@[simp] theorem type_node (type : NodeType) (inner : List Outline) : (node type inner).type = type := rfl

/-- The types of the lines in order. -/
def types : Outline → List NodeType
  | .node type inner => type :: inner.flatMap types

@[simp] theorem types_node (type : NodeType) (inner : List Outline) :
    (node type inner).types = type :: inner.flatMap types := by
  rw [types]

def block (sort : BlockSort) (inner : List Outline) : Outline :=
  .node (.ofBlock sort) (inner ++ [.node (.closer sort) []])

end Outline

/-! ### The grammar -/

/-- Whether a statement is inside a loop and inside a function, at any distance. -/
structure Scope where
  inLoop : Bool := false
  inFunction : Bool := false

/-- One constructor for each alternative of a statement; a list of statements derives if each of them does. -/
inductive Derives : Scope → Outline → Prop where
  | echo {scope : Scope} : Derives scope (.node (.echo .echo) [])
  | returnValue {scope : Scope} (inside : scope.inFunction = true) : Derives scope (.node .returnValue [])
  | jump {scope : Scope} (verb : Jump) (inside : scope.inLoop = true) : Derives scope (.node (.jump verb) [])
  | ifBlock {scope : Scope} {body : List Outline} {elseIfs : List (List Outline)}
      {otherwise : Option (List Outline)} (inBody : ∀ o ∈ body, Derives scope o)
      (inElseIfs : ∀ branch ∈ elseIfs, ∀ o ∈ branch, Derives scope o)
      (inElse : ∀ branch ∈ otherwise, ∀ o ∈ branch, Derives scope o) :
      Derives scope (.block .ifBlock
        (body ++ elseIfs.map (.node .elseIf) ++ otherwise.toList.map (.node .elseBranch)))
  | whileLoop {scope : Scope} {body : List Outline} (inBody : ∀ o ∈ body, Derives { scope with inLoop := true } o) :
      Derives scope (.block .whileLoop body)
  | forLoop {scope : Scope} {body : List Outline} (inBody : ∀ o ∈ body, Derives { scope with inLoop := true } o) :
      Derives scope (.block .forLoop body)
  | tryBlock {scope : Scope} {body : List Outline} {catches : List (List Outline)} {final : Option (List Outline)}
      (inBody : ∀ o ∈ body, Derives scope o) (inCatches : ∀ branch ∈ catches, ∀ o ∈ branch, Derives scope o)
      (inFinally : ∀ branch ∈ final, ∀ o ∈ branch, Derives scope o) :
      Derives scope (.block .tryBlock
        (body ++ catches.map (.node .catchBranch) ++ final.toList.map (.node .finallyBranch)))
  | function {scope : Scope} {body : List Outline}
      (inBody : ∀ o ∈ body, Derives { scope with inFunction := true } o) : Derives scope (.block .function body)

/-- A derivation of a script from its lines. -/
structure Derivation (lines : List Line) (statements : List Outline) : Prop where
  derives : ∀ o ∈ statements, Derives {} o
  types : statements.flatMap Outline.types = lines.map Line.type

/-- Whether a script can start with the given lines. -/
def Viable (lines : List Line) : Prop :=
  ∃ rest statements, Derivation (lines ++ rest) statements

/-- The blocks that are open after a line, from those open before it. -/
def Line.opened (blocks : List BlockSort) : Line → List BlockSort
  | .opener block => block :: blocks
  | .closer _ => blocks.tail
  | _ => blocks

/-- The blocks that are open after the given lines, the innermost first. -/
def openBlocks (lines : List Line) : List BlockSort :=
  lines.foldl Line.opened []

end VimScript
