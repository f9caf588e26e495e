import VimScript.Proofs.Blocks.Edits
import VimScript.Proofs.Tree.Sight

/-!
Open blocks as they are seen, on top of other statements of the script. Edits do the same to blocks whether one looks at
them before or after.
-/

set_option autoImplicit false

namespace VimScript

namespace Kind

variable {α : Type}

/-- A script that has other statements before its own; nothing else is changed. -/
def onto (base : List α) : Kind α → Kind α
  | .script body => .script (base ++ body)
  | kind => kind

theorem onto_nil (kind : Kind α) : kind.onto [] = kind := by
  cases kind <;> rfl

theorem onto_of_not_script {kind : Kind α} (base : List α) (other : kind.nodeType ≠ .script) : kind.onto base = kind := by
  cases kind <;> first | rfl | exact absurd rfl other

@[simp] theorem nodeType_onto (base : List α) (kind : Kind α) : (kind.onto base).nodeType = kind.nodeType := by
  cases kind <;> rfl

/-- What is seen of a content over other statements. -/
def seenOver (v : Sight) (base : List Node) (kind : Kind Node) : Kind Node :=
  ((kind.onto base).map (Node.seen v)).mapInvocation v.invocation

theorem append?_seenOver (v : Sight) (base : List Node) (statement : Node) (kind : Kind Node) :
    (kind.seenOver v base).append? (statement.seen v) = (kind.append? statement).map (seenOver v base) := by
  cases kind <;> simp [seenOver, onto, append?, map, mapInvocation]

theorem link?_seenOver (v : Sight) (base : List Node) (branch : Node) (type : NodeType) (kind : Kind Node) :
    (kind.seenOver v base).link? (branch.seen v) type = (kind.link? branch type).map (seenOver v base) := by
  cases kind <;> simp [seenOver, onto, link?, map, mapInvocation]
  all_goals split <;> simp [seenOver, onto, map, mapInvocation]

theorem closeWith_seenOver (v : Sight) (base : List Node) (closer : Node) (kind : Kind Node) :
    (kind.seenOver v base).closeWith (closer.seen v) = (kind.closeWith closer).seenOver v base := by
  cases kind <;> rfl

end Kind

namespace Node

def seenOver (v : Sight) (base : List Node) (n : Node) : Node :=
  mk (v.position n.position) (n.kind.seenOver v base)

@[simp] theorem seenOver_mk (v : Sight) (base : List Node) (position : Position) (kind : Kind Node) :
    (mk position kind).seenOver v base = mk (v.position position) (kind.seenOver v base) := rfl

theorem seenOver_of_not_script {n : Node} (v : Sight) (base : List Node) (other : n.type ≠ .script) :
    n.seenOver v base = n.seen v := by
  obtain ⟨position, kind⟩ := n
  have same : kind.onto base = kind := Kind.onto_of_not_script base other
  rw [seenOver_mk, seen_mk, Kind.seenOver, same]

theorem seenOver_nil (v : Sight) (n : Node) : n.seenOver v [] = n.seen v := by
  obtain ⟨position, kind⟩ := n
  rw [seenOver_mk, seen_mk, Kind.seenOver, Kind.onto_nil]

@[simp] theorem type_seenOver (v : Sight) (base : List Node) (n : Node) : (n.seenOver v base).type = n.type := by
  simp [type, seenOver, Kind.seenOver]

end Node

namespace Edit

/-- What is seen of an edit. -/
def seen (v : Sight) : Edit → Edit
  | .add statement => .add (statement.seen v)
  | .openBlock block => .openBlock (block.seen v)
  | .openBranch branch => .openBranch (branch.seen v)
  | .closeBlock closer => .closeBlock (closer.seen v)

end Edit

namespace Blocks

variable {b : Blocks}

/-- What is seen of the open blocks, with other statements before those of the script. -/
def seenOver (v : Sight) (base : List Node) (b : Blocks) : Blocks :=
  ⟨b.stack.map (Node.seenOver v base)⟩

theorem innermost_seenOver (v : Sight) (base : List Node) (b : Blocks) : (b.seenOver v base).innermost = b.innermost := by
  obtain ⟨stack⟩ := b
  cases stack with
  | nil => rfl
  | cons top outer => exact Node.type_seenOver v base top

theorem add_seenOver (v : Sight) (base : List Node) (statement : Node) (b : Blocks) :
    (b.add statement).seenOver v base = (b.seenOver v base).add (statement.seen v) := by
  obtain ⟨stack⟩ := b
  cases stack with
  | nil => rfl
  | cons top outer =>
    obtain ⟨position, kind⟩ := top
    have same := Kind.append?_seenOver v base statement kind
    cases found : kind.append? statement with
    | none =>
      rw [found] at same
      simp [add, seenOver, found, same]
    | some grown =>
      rw [found] at same
      simp [add, seenOver, found, same]

theorem push_seenOver {block : Node} (v : Sight) (base : List Node) (other : block.type ≠ .script) (b : Blocks) :
    (b.push block).seenOver v base = (b.seenOver v base).push (block.seen v) := by
  simp [push, seenOver, Node.seenOver_of_not_script v base other]

theorem leaveBranch_seenOver (v : Sight) (base : List Node) (b : Blocks) :
    b.leaveBranch.seenOver v base = (b.seenOver v base).leaveBranch := by
  rw [leaveBranch, leaveBranch, innermost_seenOver]
  split
  · rename_i inBranch
    obtain ⟨stack⟩ := b
    rcases stack with _ | ⟨branch, _ | ⟨⟨position, kind⟩, outer⟩⟩
    · rfl
    · rfl
    have other : branch.type ≠ .script := by
      intro same
      simp [innermost, same, NodeType.isBranch] at inBranch
    have top := Node.seenOver_of_not_script v base other
    have linked := Kind.link?_seenOver v base branch branch.type kind
    cases found : kind.link? branch branch.type with
    | none =>
      rw [found] at linked
      simp [closeBranch, seenOver, top, found, linked]
    | some grown =>
      rw [found] at linked
      simp [closeBranch, seenOver, top, found, linked]
  · rfl

theorem closeBlock_seenOver {block : Node} {outer : List Node} (v : Sight) (base : List Node) (closer : Node)
    (stack : b.stack = block :: outer) (other : block.type ≠ .script) :
    (b.closeBlock closer).seenOver v base = (b.seenOver v base).closeBlock (closer.seen v) := by
  obtain ⟨_⟩ := b
  obtain rfl := stack
  obtain ⟨position, kind⟩ := block
  have closed : (Node.mk position (kind.closeWith closer)).type ≠ .script := by
    have head := Kind.closeWith_sameHead closer kind
    rw [Node.type, Node.kind_mk, head.nodeType]
    exact other
  have below := add_seenOver v base (.mk position (kind.closeWith closer)) ⟨outer⟩
  rw [← Node.seenOver_of_not_script v base closed, Node.seenOver, Node.kind_mk, ← Kind.closeWith_seenOver] at below
  exact below

/-- An edit does to what is seen what is seen of it. -/
theorem edit_seenOver {e : Edit} (v : Sight) (base : List Node) (stands : Stands b.stack) (ok : b.Admits e) :
    (b.edit e).seenOver v base = (b.seenOver v base).edit (e.seen v) := by
  cases e with
  | add statement => exact add_seenOver v base statement b
  | openBlock block =>
    obtain ⟨-, sort, type⟩ := ok
    exact push_seenOver v base (type ▸ NodeType.ofBlock_ne_script sort) b
  | openBranch branch =>
    obtain ⟨-, takes⟩ := ok
    have other : branch.type ≠ .script := by
      intro same
      simp [same, TakesBranch] at takes
    exact (push_seenOver v base other b.leaveBranch).trans (congrArg (push _) (leaveBranch_seenOver v base b))
  | closeBlock closer =>
    obtain ⟨sort, -, inner⟩ := ok
    obtain ⟨block, outer, left, type, -⟩ := stands.leaveBranch inner
    have closed := closeBlock_seenOver v base closer left (type ▸ NodeType.ofBlock_ne_script sort)
    rw [leaveBranch_seenOver] at closed
    exact closed

theorem editAll_seenOver {edits : List Edit} (v : Sight) (base : List Node) (stands : Stands b.stack)
    (ok : b.AdmitsAll edits) :
    (b.editAll edits).seenOver v base = (b.seenOver v base).editAll (edits.map (Edit.seen v)) := by
  induction edits generalizing b with
  | nil => rfl
  | cons e edits ih =>
    rw [editAll_cons, ih (stands.edit ok.1).1 ok.2, edit_seenOver v base stands ok.1]
    rfl

end Blocks

end VimScript
