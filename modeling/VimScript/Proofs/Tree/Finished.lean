import VimScript.Proofs.Tree.Expression
import VimScript.Proofs.Tree.Slots

/-!
Finished trees: every block in them is closed by its own command, branches and statements stand in their slots, and
jumps and returns have something to leave. What is above a node counts by its types alone.
-/

set_option autoImplicit false

namespace VimScript

namespace NodeType

def isLoop (t : NodeType) : Bool :=
  t == .whileLoop || t == .forLoop

def isCloser : NodeType → Bool
  | .closer _ => true
  | _ => false

/-- What a body may list: no branch, no closing command, no script and no expression. -/
def isStatement (t : NodeType) : Bool :=
  !(t.isBranch || t.isCloser || t == .script || t.isExpression)

@[simp] theorem block?_ofBlock (block : BlockSort) : (ofBlock block).block? = some block := by
  cases block <;> rfl

@[simp] theorem isBranch_ofBlock (block : BlockSort) : (ofBlock block).isBranch = false := by
  cases block <;> rfl

@[simp] theorem isStatement_ofBlock (block : BlockSort) : (ofBlock block).isStatement = true := by
  cases block <;> rfl

theorem ofBlock_ne_script (block : BlockSort) : ofBlock block ≠ .script := by
  cases block <;> decide

end NodeType

namespace Slots

/-- Every slot holds nodes of the types it is meant for. -/
structure Typed (s : Slots Node) : Prop where
  body : ∀ c ∈ s.body, c.type.isStatement = true
  elseIfs : ∀ c ∈ s.elseIfs, c.type = .elseIf
  otherwise : ∀ c ∈ s.otherwise, c.type = .elseBranch
  catches : ∀ c ∈ s.catches, c.type = .catchBranch
  final : ∀ c ∈ s.final, c.type = .finallyBranch

theorem Typed.empty : Typed {} := by
  constructor <;> simp

theorem Typed.addStatement {s : Slots Node} {n : Node} (h : s.Typed) (type : n.type.isStatement = true) :
    Typed { s with body := s.body ++ [n] } :=
  { h with body := by simpa [or_imp, forall_and] using ⟨h.body, type⟩ }

end Slots

namespace Node

inductive Finished : List NodeType → Node → Prop where
  | intro {above : List NodeType} {n : Node} (script : n.type ≠ .script)
      (closed : ∀ block, n.type = .ofBlock block → ∃ c ∈ n.kind.slots.close, c.type = .closer block)
      (slots : n.kind.slots.Typed)
      (jump : ∀ verb, n.type = .jump verb → ∃ t ∈ above, t.isLoop = true)
      (returnValue : n.type = .returnValue → .function ∈ above)
      (children : ∀ c ∈ n.children, Finished (n.type :: above) c) : Finished above n

/-- A node with empty slots, which needs no closing, is finished if the nodes below it are. -/
theorem Finished.of_slots_eq_empty {above : List NodeType} {n : Node} (slots : n.kind.slots = {})
    (single : n.type.block? = none) (script : n.type ≠ .script)
    (jump : ∀ verb, n.type = .jump verb → ∃ t ∈ above, t.isLoop = true)
    (returnValue : n.type = .returnValue → .function ∈ above)
    (children : ∀ c ∈ n.children, c.Finished (n.type :: above)) : n.Finished above := by
  refine .intro script ?_ (slots ▸ .empty) jump returnValue children
  intro block type
  simp [type] at single

/-- Only blocks and branches have slots. -/
theorem slots_eq_empty {n : Node} (single : n.type.block? = none) (script : n.type ≠ .script) :
    n.kind.slots = {} := by
  obtain ⟨position, kind⟩ := n
  cases kind <;> simp_all [type, Kind.nodeType, NodeType.block?, Kind.slots]

theorem IsExpression.finished {n : Node} (h : n.IsExpression) (above : List NodeType) : n.Finished above := by
  induction h generalizing above with
  | @intro n type children ih =>
    have single : n.type.block? = none := by
      cases t : n.type <;> simp [t, NodeType.isExpression] at type <;> rfl
    have script : n.type ≠ .script := by
      intro same
      simp [same, NodeType.isExpression] at type
    refine .of_slots_eq_empty (slots_eq_empty single script) single script ?_ ?_ fun c inside => ih c inside _
    · intro verb same
      simp [same, NodeType.isExpression] at type
    · intro same
      simp [same, NodeType.isExpression] at type

theorem finished_of_closer {n : Node} {block : BlockSort} (type : n.type = .closer block)
    (above : List NodeType) : n.Finished above := by
  have single : n.type.block? = none := by rw [type]; rfl
  have script : n.type ≠ .script := by simp [type]
  refine .of_slots_eq_empty (slots_eq_empty single script) single script (by simp [type]) (by simp [type]) ?_
  obtain ⟨position, kind⟩ := n
  cases kind <;> simp [Node.type, Kind.nodeType] at type
  simp [Node.children, Kind.children]

/-! ### Nodes that are still open -/

/-- A block or a branch whose closing command is still to come. -/
structure Growing (above : List NodeType) (n : Node) : Prop where
  slots : n.kind.slots.Typed
  close : n.kind.slots.close = none
  children : ∀ c ∈ n.children, c.Finished (n.type :: above)

/-- A block or a branch that takes statements; no last branch is linked into it. -/
structure Open (above : List NodeType) (n : Node) : Prop extends Growing above n where
  otherwise : n.kind.slots.otherwise = none
  final : n.kind.slots.final = none

/-- A block or a branch whose line was read just now. -/
structure Fresh (n : Node) : Prop where
  slots : n.kind.slots = {}
  header : ∀ c ∈ n.kind.header, c.IsExpression

theorem Fresh.children {n : Node} (h : n.Fresh) : ∀ c ∈ n.children, c.IsExpression := by
  intro c inside
  have place : c ∈ n.kind.header := by
    simpa [Node.children, Kind.children_eq, h.slots, Slots.all] using inside
  exact h.header c place

theorem Fresh.isOpen {n : Node} (h : n.Fresh) (above : List NodeType) : n.Open above where
  slots := h.slots ▸ .empty
  close := by rw [h.slots]
  otherwise := by rw [h.slots]
  final := by rw [h.slots]
  children c inside := (h.children c inside).finished _

/-- A branch is finished as it is. -/
theorem Growing.finished_of_isBranch {above : List NodeType} {n : Node} (h : n.Growing above)
    (branch : n.type.isBranch = true) : n.Finished above := by
  refine .intro ?_ ?_ h.slots ?_ ?_ h.children
  · intro same
    simp [same, NodeType.isBranch] at branch
  · intro block same
    simp [same] at branch
  · intro verb same
    simp [same, NodeType.isBranch] at branch
  · intro same
    simp [same, NodeType.isBranch] at branch

end Node

end VimScript
