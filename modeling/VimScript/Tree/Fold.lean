import VimScript.Tree

/-!
Folding a tree: every node is replaced by a value made from its position and its content, in which the nodes
below are replaced already. The main statement is `fold_mk`.
-/

set_option autoImplicit false

namespace VimScript.Node

variable {β : Type}

mutual

def fold (f : Position → Kind β → β) : Node → β
  | .mk position kind => f position (foldKind f kind)

def foldKind (f : Position → Kind β → β) : Kind Node → Kind β
  | .script body => .script (foldList f body)
  | .comment text => .comment text
  | .command inv text => .command inv text
  | .function inv name params defaults flags body close =>
    .function inv (fold f name) (foldList f params) (foldList f defaults) flags (foldList f body)
      (foldOption f close)
  | .closer block inv => .closer block inv
  | .operand verb inv value => .operand verb inv (fold f value)
  | .returnValue inv value => .returnValue inv (foldOption f value)
  | .assign verb inv op single items rest value =>
    .assign verb inv op (foldOption f single) (foldList f items) (foldOption f rest) (fold f value)
  | .unlet inv targets => .unlet inv (foldList f targets)
  | .lock verb inv depth targets => .lock verb inv depth (foldList f targets)
  | .ifBlock inv cond body elseIfs otherwise close =>
    .ifBlock inv (fold f cond) (foldList f body) (foldList f elseIfs) (foldOption f otherwise)
      (foldOption f close)
  | .elseIf inv cond body => .elseIf inv (fold f cond) (foldList f body)
  | .elseBranch inv body => .elseBranch inv (foldList f body)
  | .whileLoop inv cond body close => .whileLoop inv (fold f cond) (foldList f body) (foldOption f close)
  | .forLoop inv single items rest values body close =>
    .forLoop inv (foldOption f single) (foldList f items) (foldOption f rest) (fold f values)
      (foldList f body) (foldOption f close)
  | .jump verb inv => .jump verb inv
  | .tryBlock inv body catches final close =>
    .tryBlock inv (foldList f body) (foldList f catches) (foldOption f final) (foldOption f close)
  | .catchBranch inv pattern body => .catchBranch inv pattern (foldList f body)
  | .finallyBranch inv body => .finallyBranch inv (foldList f body)
  | .echo verb inv values => .echo verb inv (foldList f values)
  | .echoHl inv text => .echoHl inv text
  | .ternary cond yes no => .ternary (fold f cond) (fold f yes) (fold f no)
  | .binary op left right => .binary op (fold f left) (fold f right)
  | .unary op value => .unary op (fold f value)
  | .subscript left index => .subscript (fold f left) (fold f index)
  | .slice left lower upper => .slice (fold f left) (foldOption f lower) (foldOption f upper)
  | .method left right => .method (fold f left) (fold f right)
  | .call callee args => .call (fold f callee) (foldList f args)
  | .dot left name => .dot (fold f left) (fold f name)
  | .leaf sort text => .leaf sort text
  | .list items => .list (foldList f items)
  | .dict entries => .dict (foldPairs f entries)
  | .curlyName parts => .curlyName (foldList f parts)
  | .curlyExpr value => .curlyExpr (fold f value)
  | .lambda params body => .lambda (foldList f params) (fold f body)
  | .heredoc options marker lines => .heredoc options marker lines

def foldList (f : Position → Kind β → β) : List Node → List β
  | [] => []
  | n :: ns => fold f n :: foldList f ns

def foldOption (f : Position → Kind β → β) : Option Node → Option β
  | none => none
  | some n => some (fold f n)

def foldPairs (f : Position → Kind β → β) : List (Node × Node) → List (β × β)
  | [] => []
  | (k, v) :: entries => (fold f k, fold f v) :: foldPairs f entries

end

@[simp] theorem foldList_eq_map (f : Position → Kind β → β) (ns : List Node) :
    foldList f ns = ns.map (fold f) := by
  induction ns with
  | nil => simp [foldList]
  | cons n ns ih => simp [foldList, ih]

@[simp] theorem foldOption_eq_map (f : Position → Kind β → β) (n : Option Node) :
    foldOption f n = n.map (fold f) := by
  cases n <;> simp [foldOption]

@[simp] theorem foldPairs_eq_map (f : Position → Kind β → β) (entries : List (Node × Node)) :
    foldPairs f entries = entries.map fun (k, v) => (fold f k, fold f v) := by
  induction entries with
  | nil => simp [foldPairs]
  | cons entry entries ih =>
    obtain ⟨k, v⟩ := entry
    simp [foldPairs, ih]

theorem foldKind_eq_map (f : Position → Kind β → β) (kind : Kind Node) :
    foldKind f kind = kind.map (fold f) := by
  cases kind <;> simp only [foldKind, Kind.map, foldList_eq_map, foldOption_eq_map, foldPairs_eq_map]

theorem fold_mk (f : Position → Kind β → β) (position : Position) (kind : Kind Node) :
    fold f (.mk position kind) = f position (kind.map (fold f)) := by
  rw [fold, foldKind_eq_map]

end VimScript.Node
