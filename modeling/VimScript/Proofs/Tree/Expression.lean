import VimScript.Tree

/-!
Trees of expressions: no node in them is a statement, a branch or a script.
-/

set_option autoImplicit false

namespace VimScript

namespace NodeType

def isExpression : NodeType → Bool
  | .ternary | .binary _ | .unary _ | .subscript | .slice | .call | .dot | .leaf _ | .list | .dict
  | .curlyName | .curlyExpr | .lambda | .heredoc | .method => true
  | _ => false

attribute [grind =] isExpression

end NodeType

namespace Node

inductive IsExpression : Node → Prop where
  | intro {n : Node} (type : n.type.isExpression = true) (children : ∀ c ∈ n.children, IsExpression c) :
      IsExpression n

namespace IsExpression

theorem type {n : Node} (h : n.IsExpression) : n.type.isExpression = true := by
  cases h; assumption

theorem children {n : Node} (h : n.IsExpression) : ∀ c ∈ n.children, c.IsExpression := by
  cases h; assumption

variable {p : Position} {a b c : Node} {ns : List Node}

@[simp] theorem leaf (sort : Leaf) (text : String) : (Node.leaf sort text p).IsExpression :=
  .intro rfl (by simp [Node.leaf, Node.children, Kind.children])

@[simp] theorem identifier (text : String) : (Node.identifier text p).IsExpression :=
  leaf _ text

theorem binary (op : BinaryOp) (left : a.IsExpression) (right : b.IsExpression) :
    (mk p (.binary op a b)).IsExpression :=
  .intro rfl (by simp [Node.children, Kind.children, left, right])

theorem unary (op : UnaryOp) (value : a.IsExpression) : (mk p (.unary op a)).IsExpression :=
  .intro rfl (by simp [Node.children, Kind.children, value])

theorem ternary (cond : a.IsExpression) (yes : b.IsExpression) (no : c.IsExpression) :
    (mk p (.ternary a b c)).IsExpression :=
  .intro rfl (by simp [Node.children, Kind.children, cond, yes, no])

theorem subscript (left : a.IsExpression) (index : b.IsExpression) :
    (mk p (.subscript a b)).IsExpression :=
  .intro rfl (by simp [Node.children, Kind.children, left, index])

theorem slice {lower upper : Option Node} (left : a.IsExpression) (below : ∀ n ∈ lower, n.IsExpression)
    (above : ∀ n ∈ upper, n.IsExpression) : (mk p (.slice a lower upper)).IsExpression := by
  refine .intro rfl fun n inside => ?_
  have place : n = a ∨ lower = some n ∨ upper = some n := by
    simpa [Node.children, Kind.children] using inside
  rcases place with rfl | bound | bound
  · exact left
  · exact below n bound
  · exact above n bound

theorem dot (left : a.IsExpression) (name : b.IsExpression) : (mk p (.dot a b)).IsExpression :=
  .intro rfl (by simp [Node.children, Kind.children, left, name])

theorem call (callee : a.IsExpression) (args : ∀ n ∈ ns, n.IsExpression) :
    (mk p (.call a ns)).IsExpression :=
  .intro rfl (by simp_all [Node.children, Kind.children])

theorem method (left : a.IsExpression) (call : b.IsExpression) : (mk p (.method a b)).IsExpression :=
  .intro rfl (by simp [Node.children, Kind.children, left, call])

theorem list (items : ∀ n ∈ ns, n.IsExpression) : (mk p (.list ns)).IsExpression :=
  .intro rfl items

theorem dict {entries : List (Node × Node)}
    (parts : ∀ entry ∈ entries, entry.1.IsExpression ∧ entry.2.IsExpression) :
    (mk p (.dict entries)).IsExpression := by
  refine .intro rfl fun n inside => ?_
  obtain ⟨⟨k, v⟩, entry, place⟩ := List.mem_flatMap.mp inside
  have either : n = k ∨ n = v := by simpa using place
  rcases either with rfl | rfl
  · exact (parts _ entry).1
  · exact (parts _ entry).2

theorem curlyName (parts : ∀ n ∈ ns, n.IsExpression) : (mk p (.curlyName ns)).IsExpression :=
  .intro rfl parts

theorem curlyExpr (value : a.IsExpression) : (mk p (.curlyExpr a)).IsExpression :=
  .intro rfl (by simp [Node.children, Kind.children, value])

theorem lambda (params : ∀ n ∈ ns, n.IsExpression) (body : a.IsExpression) :
    (mk p (.lambda ns a)).IsExpression := by
  refine .intro rfl fun n inside => ?_
  rcases List.mem_append.mp inside with param | rest
  · exact params n param
  · rw [List.mem_singleton.mp rest]
    exact body

theorem heredoc (options : List String) (marker : String) (lines : List String) :
    (mk p (.heredoc options marker lines)).IsExpression :=
  .intro rfl (by simp [Node.children, Kind.children])

end IsExpression

end Node

end VimScript
