import VimScript.Tree

/-!
The fields a walk visits: for every type of node which parts of it hold nodes, in visiting order.
-/

set_option autoImplicit false

namespace VimScript

/-- The parts of a node that hold nodes. -/
inductive Part where
  | left | right | args | items | body | value | rest | cond | defaults | elseIfs | otherwise | catches
  | final | close
deriving DecidableEq, Repr

/-- How a part holds its nodes: one at most, a list of them, or pairs. -/
inductive Shape where
  | node | list | pairs
deriving DecidableEq, Repr

structure Field where
  name : String
  shape : Shape
  part : Part
deriving DecidableEq, Repr

namespace Field

def left : Field := ⟨"left", .node, .left⟩
def right : Field := ⟨"right", .node, .right⟩
def args : Field := ⟨"rlist", .list, .args⟩
def items : Field := ⟨"list", .list, .items⟩
def body : Field := ⟨"body", .list, .body⟩
def values : Field := ⟨"value", .list, .value⟩
def rest : Field := ⟨"rest", .node, .rest⟩
def cond : Field := ⟨"cond", .node, .cond⟩
def close (name : String) : Field := ⟨name, .node, .close⟩

end Field

/-- The fields of a type. A loop's body is visited before what it runs over. -/
def NodeType.fields : NodeType → List Field
  | .script => [.body]
  | .comment | .command | .closer _ | .jump _ | .echoHl | .heredoc | .leaf _ => []
  | .function =>
    [.left, .args, ⟨"default_args", .list, .defaults⟩, .body, .close "endfunction"]
  | .operand _ | .returnValue | .unary _ => [.left]
  | .assign _ => [.left, .items, .rest, .right]
  | .unlet | .lock _ | .echo _ => [.items]
  | .ifBlock =>
    [.cond, .body, ⟨"elseif", .list, .elseIfs⟩, ⟨"else", .node, .otherwise⟩, .close "endif"]
  | .elseIf => [.cond, .body]
  | .elseBranch | .catchBranch | .finallyBranch => [.body]
  | .whileLoop => [.cond, .body, .close "endwhile"]
  | .forLoop => [.body, .left, .items, .rest, .right, .close "endfor"]
  | .tryBlock => [.body, ⟨"catch", .list, .catches⟩, ⟨"finally", .node, .final⟩, .close "endtry"]
  | .ternary => [.cond, .left, .right]
  | .binary _ | .subscript | .dot | .method => [.left, .right]
  | .slice | .call => [.left, .args]
  | .list | .curlyName => [.values]
  | .dict => [⟨"value", .pairs, .value⟩]
  | .curlyExpr => [⟨"value", .node, .value⟩]
  | .lambda => [.args, .left]

namespace Kind

variable {α : Type}

/-- The nodes in a part; a node has none in a part that is not its own. -/
def part : Kind α → Part → List α
  | .function _ name _ _ _ _ _, .left => [name]
  | .function _ _ params _ _ _ _, .args => params
  | .function _ _ _ defaults _ _ _, .defaults => defaults
  | .function _ _ _ _ _ _ close, .close => close.toList
  | .operand _ _ value, .left => [value]
  | .returnValue _ value, .left => value.toList
  | .assign _ _ _ single _ _ _, .left => single.toList
  | .assign _ _ _ _ items _ _, .items => items
  | .assign _ _ _ _ _ rest _, .rest => rest.toList
  | .assign _ _ _ _ _ _ value, .right => [value]
  | .unlet _ targets, .items => targets
  | .lock _ _ _ targets, .items => targets
  | .ifBlock _ cond _ _ _ _, .cond => [cond]
  | .ifBlock _ _ _ elseIfs _ _, .elseIfs => elseIfs
  | .ifBlock _ _ _ _ otherwise _, .otherwise => otherwise.toList
  | .ifBlock _ _ _ _ _ close, .close => close.toList
  | .elseIf _ cond _, .cond => [cond]
  | .whileLoop _ cond _ _, .cond => [cond]
  | .whileLoop _ _ _ close, .close => close.toList
  | .forLoop _ single _ _ _ _ _, .left => single.toList
  | .forLoop _ _ items _ _ _ _, .items => items
  | .forLoop _ _ _ rest _ _ _, .rest => rest.toList
  | .forLoop _ _ _ _ values _ _, .right => [values]
  | .forLoop _ _ _ _ _ _ close, .close => close.toList
  | .tryBlock _ _ catches _ _, .catches => catches
  | .tryBlock _ _ _ final _, .final => final.toList
  | .tryBlock _ _ _ _ close, .close => close.toList
  | .echo _ _ values, .items => values
  | .ternary cond _ _, .cond => [cond]
  | .ternary _ yes _, .left => [yes]
  | .ternary _ _ no, .right => [no]
  | .binary _ left _, .left => [left]
  | .binary _ _ right, .right => [right]
  | .unary _ value, .left => [value]
  | .subscript left _, .left => [left]
  | .subscript _ index, .right => [index]
  | .slice left _ _, .left => [left]
  | .slice _ lower upper, .args => lower.toList ++ upper.toList
  | .method left _, .left => [left]
  | .method _ right, .right => [right]
  | .call callee _, .left => [callee]
  | .call _ args, .args => args
  | .dot left _, .left => [left]
  | .dot _ name, .right => [name]
  | .list items, .value => items
  | .dict entries, .value => entries.flatMap fun (k, v) => [k, v]
  | .curlyName parts, .value => parts
  | .curlyExpr value, .value => [value]
  | .lambda params _, .args => params
  | .lambda _ body, .left => [body]
  | kind, .body => kind.body?.getD []
  | _, _ => []

theorem mem_children_of_mem_part {kind : Kind α} {p : Part} {a : α} (h : a ∈ kind.part p) :
    a ∈ kind.children := by
  cases kind <;> cases p <;> delta part at h <;>
    simp only [body?, Option.getD_some, Option.getD_none, List.not_mem_nil, List.mem_append, List.mem_singleton] at h <;>
    simp only [children, List.mem_append, List.mem_cons, or_assoc, h, true_or, or_true]

end Kind

namespace Node

/-- The nodes a list of fields leads to. -/
def along (n : Node) (fields : List Field) : List Node :=
  fields.flatMap fun f => n.kind.part f.part

theorem mem_children_of_mem_along {n c : Node} {fields : List Field} (h : c ∈ n.along fields) :
    c ∈ n.children := by
  obtain ⟨f, _, inside⟩ := List.mem_flatMap.mp h
  exact Kind.mem_children_of_mem_part inside

theorem sizeOf_lt_of_mem_along {n c : Node} {fields : List Field} (h : c ∈ n.along fields) :
    sizeOf c < sizeOf n :=
  sizeOf_lt_of_mem_children (mem_children_of_mem_along h)

end Node

end VimScript
