import VimScript.Proofs.Blocks.Edits
import VimScript.Proofs.Grammar.Frames
import VimScript.Proofs.Tree.Map
import VimScript.Tree.Fold

/-!
Open blocks by their outlines. What an edit does to the stack of nodes is what the frames of its outlines do.
-/

set_option autoImplicit false

namespace VimScript

theorem Kind.all_slots_map {α β : Type} (f : α → β) (kind : Kind α) :
    (kind.map f).slots.all = kind.slots.all.map f := by
  cases kind <;> simp [map, slots, Slots.all, Option.toList_map]

theorem Kind.catches_of_ifBlock {α : Type} {kind : Kind α} (h : kind.nodeType = .ifBlock) :
    kind.slots.catches = [] := by
  cases kind <;> simp [nodeType] at h
  rfl

theorem Kind.elseIfs_of_tryBlock {α : Type} {kind : Kind α} (h : kind.nodeType = .tryBlock) :
    kind.slots.elseIfs = [] := by
  cases kind <;> simp [nodeType] at h
  rfl

namespace Node

/-- The types of a node and of what is in its slots, at every depth. -/
def outline : Node → Outline :=
  fold fun _ kind => .node kind.nodeType kind.slots.all

theorem outline_mk (position : Position) (kind : Kind Node) :
    (mk position kind).outline = .node kind.nodeType (kind.slots.all.map outline) := by
  rw [outline, fold_mk, Kind.nodeType_map, Kind.all_slots_map]

theorem outline_eq (n : Node) : n.outline = .node n.type (n.kind.slots.all.map outline) :=
  (congrArg outline n.eta).symm.trans (outline_mk n.position n.kind)

@[simp] theorem type_outline (n : Node) : n.outline.type = n.type := by
  rw [outline_eq, Outline.type_node]

/-- A branch is linked in after all that its block holds so far. -/
theorem Open.all_link {host branch : Node} {sort : BlockSort} {above : List NodeType} (h : host.Open above)
    (type : host.type = .ofBlock sort) (isBranch : branch.type.isBranch = true)
    (belongs : branch.type.block? = some sort) :
    ∃ kind, host.kind.link? branch branch.type = some kind ∧ host.kind.SameHead kind ∧
      kind.slots.all = host.kind.slots.all ++ [branch] := by
  cases t : branch.type <;> simp [t, NodeType.isBranch] at isBranch <;>
    obtain rfl : _ = sort := by simpa [t, NodeType.block?] using belongs
  case elseIf | elseBranch =>
    obtain ⟨kind, found, head, slots⟩ := Kind.link?_ifBlock branch branch.type type
    refine ⟨kind, t ▸ found, head, ?_⟩
    simp [slots, t, Slots.all, Kind.catches_of_ifBlock type, h.otherwise, h.final, h.close]
  case catchBranch | finallyBranch =>
    obtain ⟨kind, found, head, slots⟩ := Kind.link?_tryBlock branch branch.type type
    refine ⟨kind, t ▸ found, head, ?_⟩
    simp [slots, t, Slots.all, Kind.elseIfs_of_tryBlock type, h.otherwise, h.final, h.close]

/-- A node has grown at its end, as far as outlines go. -/
theorem outline_of_all {position : Position} {before after : Kind Node} {child : Node}
    (type : after.nodeType = before.nodeType) (all : after.slots.all = before.slots.all ++ [child]) :
    (mk position after).outline = .node before.nodeType (before.slots.all.map outline ++ [child.outline]) := by
  simp [outline_mk, type, all]

end Node

namespace Frames

theorem Grows.isStatement_inner {type : NodeType} {inner : List Outline} {outer : Frames}
    (h : Grows (.node type inner :: outer)) : ∀ o ∈ inner, o.type.isBranch = false := by
  intro o place
  cases h with
  | script inScript => exact (inScript o place).isStatement
  | block inBody below => exact (inBody o place).isStatement
  | branch middle last inner divides inBody inMiddle inInner below => exact (inInner o place).isStatement

end Frames

namespace Blocks

variable {b : Blocks} {n top : Node} {outer : List Node}

def frames (b : Blocks) : Frames :=
  b.stack.map Node.outline

theorem innermost_frames (b : Blocks) : b.frames.innermost = b.innermost := by
  obtain ⟨stack⟩ := b
  cases stack with
  | nil => rfl
  | cons top outer => exact top.type_outline

theorem scope_frames (b : Blocks) : b.frames.scope = ⟨b.insideLoop, b.insideFunction⟩ := by
  simp [frames, Frames.scope, insideLoop, insideFunction, anyOpen, List.any_map, Function.comp_def]

/-- Statements are all that the innermost frame holds. -/
theorem branches_of_grows (stands : Stands (top :: outer)) (grows : Frames.Grows (frames ⟨top :: outer⟩)) :
    top.kind.slots.elseIfs = [] ∧ top.kind.slots.catches = [] := by
  have whole : frames ⟨top :: outer⟩ =
      .node top.type (top.kind.slots.all.map Node.outline) :: outer.map Node.outline := by
    simp [frames, Node.outline_eq top]
  rw [whole] at grows
  have noBranch : ∀ c ∈ top.kind.slots.all, c.type.isBranch = false := by
    intro c place
    simpa using grows.isStatement_inner _ (List.mem_map_of_mem place)
  have typed := stands.isOpen.slots
  constructor
  · refine List.eq_nil_iff_forall_not_mem.mpr fun c place => ?_
    have type := typed.elseIfs c place
    simpa [type, NodeType.isBranch] using noBranch c (by simp [Slots.all, place])
  · refine List.eq_nil_iff_forall_not_mem.mpr fun c place => ?_
    have type := typed.catches c place
    simpa [type, NodeType.isBranch] using noBranch c (by simp [Slots.all, place])

theorem frames_add (stands : Stands b.stack) (grows : Frames.Grows b.frames) (n : Node) :
    (b.add n).frames = Frames.add n.outline b.frames := by
  obtain ⟨stack⟩ := b
  cases stack with
  | nil => cases stands
  | cons top outer =>
    obtain ⟨noElseIfs, noCatches⟩ := branches_of_grows stands grows
    obtain ⟨kind, found, head, slots⟩ := Kind.append?_of_body? n stands.isSome_body?
    have isOpen := stands.isOpen
    have all : kind.slots.all = top.kind.slots.all ++ [n] := by
      simp [slots, Slots.all, noElseIfs, noCatches, isOpen.otherwise, isOpen.final, isOpen.close]
    obtain ⟨position, before⟩ := top
    simp only [Node.kind_mk] at found all
    simp [frames, Blocks.add, found, Node.outline_of_all head.nodeType all, Node.outline_mk, Frames.add]

theorem frames_leaveBranch (stands : Stands b.stack) : b.leaveBranch.frames = Frames.leaveBranch b.frames := by
  obtain ⟨stack⟩ := b
  cases stands with
  | @script n type grows => simp [leaveBranch, innermost, frames, Frames.leaveBranch, type, NodeType.isBranch]
  | @block n outer sort type grows below => simp [leaveBranch, innermost, frames, Frames.leaveBranch, type]
  | @branch n host outer sort isBranch belongs type grows below =>
    have isOpen := below.isOpen
    obtain ⟨kind, found, head, all⟩ := isOpen.all_link type isBranch belongs
    obtain ⟨position, before⟩ := host
    simp only [Node.kind_mk] at found all
    simp [leaveBranch, innermost, isBranch, closeBranch, found, frames, Frames.leaveBranch,
      Node.outline_of_all head.nodeType all, Node.outline_mk, Frames.add]

theorem frames_closeBlock {block : Node} (closer : Node) {sort : BlockSort} {above : List NodeType}
    (stack : b.stack = block :: outer) (type : block.type = .ofBlock sort) (growing : block.Growing above)
    (stands : Stands outer) (grows : Frames.Grows (frames ⟨outer⟩)) :
    (b.closeBlock closer).frames = Frames.close closer.outline b.frames := by
  obtain ⟨all⟩ := b
  obtain rfl : all = block :: outer := stack
  have head := Kind.closeWith_sameHead closer block.kind
  have slots := Kind.slots_closeWith closer type
  have all : (block.kind.closeWith closer).slots.all = block.kind.slots.all ++ [closer] := by
    simp [slots, Slots.all, growing.close]
  obtain ⟨position, kind⟩ := block
  have result := frames_add (b := ⟨outer⟩) stands grows (.mk position (kind.closeWith closer))
  simp only [Node.kind_mk] at all head
  rw [Node.outline_of_all head.nodeType all] at result
  simpa [closeBlock, frames, Frames.close, Node.outline_mk] using result

end Blocks

/-- What a line with a node of the given type does to the open blocks. -/
def Edit.ofType (type : NodeType) (n : Node) : Edit :=
  match type with
  | .closer _ => .closeBlock n
  | .elseIf | .elseBranch | .catchBranch | .finallyBranch => .openBranch n
  | .function | .ifBlock | .whileLoop | .forLoop | .tryBlock => .openBlock n
  | _ => .add n

namespace Blocks

variable {b : Blocks}

theorem frames_edit (line : Line) {n : Node} (stands : Stands b.stack) (grows : Frames.Grows b.frames)
    (outline : n.outline = .node line.type []) (ok : b.frames.admits line.type = true) :
    (b.edit (.ofType line.type n)).frames = b.frames.enter line.type := by
  have stays := frames_add stands grows n
  have opens : (b.edit (.openBranch n)).frames = .node line.type [] :: Frames.leaveBranch b.frames := by
    rw [← frames_leaveBranch stands, ← outline]
    rfl
  cases line with
  | opener sort =>
    have pushed : (b.edit (.openBlock n)).frames = .node (Line.opener sort).type [] :: b.frames := by
      rw [← outline]
      rfl
    cases sort <;> exact pushed
  | closer sort =>
    have inside : b.innermost.block? = some sort := by
      rw [← innermost_frames]
      exact eq_of_beq ok
    obtain ⟨block, outer, left, type, growing, standing, -⟩ := stands.leaveBranch inside
    obtain ⟨inner, below, leftFrames, grows', -⟩ := grows.leaveBranch (eq_of_beq ok)
    have same : below = frames ⟨outer⟩ := by
      rw [← frames_leaveBranch stands, frames, left] at leftFrames
      exact (List.cons.inj leftFrames).2.symm
    have closed := frames_closeBlock n left type growing standing (same ▸ grows')
    rw [frames_leaveBranch stands, outline] at closed
    exact closed
  | elseIf | elseBranch | catchBranch | finallyBranch => exact opens
  | jump verb | returnValue | echo =>
    rw [outline] at stays
    exact stays

end Blocks

end VimScript
