import VimScript.Proofs.Tree.Finished

/-!
The open blocks as a stack of frames. The script is at the bottom, a branch stands on the block it belongs to, and
everything below a frame is finished. An edit that the innermost block admits keeps all this, and every node it
hands over becomes part of exactly one other node.
-/

set_option autoImplicit false

namespace VimScript

namespace Slots

variable {α : Type}

section

open Classical

-- The slots differ in their order from the list of all parts, so occurrences are counted.
theorem all_addStatement (s : Slots α) (a : α) :
    { s with body := s.body ++ [a] }.all.Perm (a :: s.all) := by
  refine List.perm_iff_count.mpr fun b => ?_
  simp only [all, List.count_append, List.count_cons, List.count_nil]
  omega

theorem all_addElseIf (s : Slots α) (a : α) :
    { s with elseIfs := s.elseIfs ++ [a] }.all.Perm (a :: s.all) := by
  refine List.perm_iff_count.mpr fun b => ?_
  simp only [all, List.count_append, List.count_cons, List.count_nil]
  omega

theorem all_addCatch (s : Slots α) (a : α) :
    { s with catches := s.catches ++ [a] }.all.Perm (a :: s.all) := by
  refine List.perm_iff_count.mpr fun b => ?_
  simp only [all, List.count_append, List.count_cons, List.count_nil]
  omega

theorem all_setOtherwise {s : Slots α} (a : α) (unset : s.otherwise = none) :
    { s with otherwise := some a }.all.Perm (a :: s.all) := by
  refine List.perm_iff_count.mpr fun b => ?_
  simp only [all, unset, Option.toList, List.count_append, List.count_cons, List.count_nil]
  omega

theorem all_setFinal {s : Slots α} (a : α) (unset : s.final = none) :
    { s with final := some a }.all.Perm (a :: s.all) := by
  refine List.perm_iff_count.mpr fun b => ?_
  simp only [all, unset, Option.toList, List.count_append, List.count_cons, List.count_nil]
  omega

theorem all_setClose {s : Slots α} (a : α) (unset : s.close = none) :
    { s with close := some a }.all.Perm (a :: s.all) := by
  refine List.perm_iff_count.mpr fun b => ?_
  simp only [all, unset, Option.toList, List.count_append, List.count_cons, List.count_nil]
  omega

end

end Slots

namespace Node

/-- One node has become a child of another, in one place; all else about the other is as before. -/
structure Gains (child before after : Node) : Prop where
  position : after.position = before.position
  type : after.type = before.type
  invocation : after.invocation? = before.invocation?
  children : after.children.Perm (child :: before.children)

theorem gains_of_sameHead {child : Node} (position : Position) {before after : Kind Node}
    (head : before.SameHead after) (slots : after.slots.all.Perm (child :: before.slots.all)) :
    child.Gains (mk position before) (mk position after) where
  position := rfl
  type := head.nodeType
  invocation := head.invocation
  children := by
    simp only [Node.children, kind_mk, Kind.children_eq, head.header]
    exact (slots.append_left _).trans List.perm_middle

theorem Gains.finished_children {child before after : Node} {above : List NodeType}
    (h : child.Gains before after) (old : ∀ c ∈ before.children, c.Finished (before.type :: above))
    (new : child.Finished (before.type :: above)) : ∀ c ∈ after.children, c.Finished (after.type :: above) := by
  intro c inside
  rw [h.type]
  rcases List.mem_cons.mp (h.children.mem_iff.mp inside) with rfl | place
  · exact new
  · exact old c place

/-! ### Growth of one frame -/

variable {above : List NodeType}

theorem Open.add {top statement : Node} (h : top.Open above) (holds : top.kind.body?.isSome = true)
    (type : statement.type.isStatement = true) (finished : statement.Finished (top.type :: above)) :
    ∃ kind, top.kind.append? statement = some kind ∧ statement.Gains top (Node.mk top.position kind) ∧
      (Node.mk top.position kind).Open above := by
  obtain ⟨kind, found, head, slots⟩ := Kind.append?_of_body? statement holds
  have gains : statement.Gains top (Node.mk top.position kind) := by
    simpa using gains_of_sameHead top.position head (slots ▸ Slots.all_addStatement _ statement)
  refine ⟨kind, found, gains, ?_⟩
  exact
    { slots := by simpa [slots] using h.slots.addStatement type
      close := by simpa [slots] using h.close
      otherwise := by simpa [slots] using h.otherwise
      final := by simpa [slots] using h.final
      children := gains.finished_children h.children finished }

theorem Growing.gain {host branch : Node} {kind : Kind Node} (h : host.Growing above)
    (finished : branch.Finished (host.type :: above)) (head : host.kind.SameHead kind)
    (slots : kind.slots.all.Perm (branch :: host.kind.slots.all)) (typed : kind.slots.Typed)
    (close : kind.slots.close = none) :
    branch.Gains host (Node.mk host.position kind) ∧ (Node.mk host.position kind).Growing above := by
  have gains : branch.Gains host (Node.mk host.position kind) := by
    simpa using gains_of_sameHead host.position head slots
  exact ⟨gains, typed, close, gains.finished_children h.children finished⟩

theorem Open.link {host branch : Node} {block : BlockSort} (h : host.Open above)
    (type : host.type = .ofBlock block) (belongs : branch.type.block? = some block)
    (isBranch : branch.type.isBranch = true) (growing : branch.Growing (host.type :: above)) :
    ∃ kind, host.kind.link? branch branch.type = some kind ∧ branch.Gains host (Node.mk host.position kind) ∧
      (Node.mk host.position kind).Growing above ∧
      (branch.type ≠ .elseBranch → branch.type ≠ .finallyBranch → (Node.mk host.position kind).Open above) := by
  have finished := growing.finished_of_isBranch isBranch
  cases t : branch.type <;> simp [t, NodeType.isBranch] at isBranch <;>
    obtain rfl : _ = block := by simpa [t, NodeType.block?] using belongs
  case elseIf =>
    obtain ⟨kind, found, head, slots⟩ := Kind.link?_ifBlock branch .elseIf type
    replace slots : kind.slots = { host.kind.slots with elseIfs := host.kind.slots.elseIfs ++ [branch] } := slots
    have typed : kind.slots.Typed := by
      rw [slots]
      exact { h.slots with elseIfs := by simpa [or_imp, forall_and] using ⟨h.slots.elseIfs, t⟩ }
    obtain ⟨gains, grows⟩ := h.gain finished head (slots ▸ Slots.all_addElseIf _ branch) typed
      (by simpa [slots] using h.close)
    refine ⟨kind, found, gains, grows, fun _ _ => { grows with otherwise := ?_, final := ?_ }⟩
    · simpa [slots] using h.otherwise
    · simpa [slots] using h.final
  case elseBranch =>
    obtain ⟨kind, found, head, slots⟩ := Kind.link?_ifBlock branch .elseBranch type
    replace slots : kind.slots = { host.kind.slots with otherwise := some branch } := slots
    have typed : kind.slots.Typed := by
      rw [slots]
      exact { h.slots with otherwise := by simpa using t }
    obtain ⟨gains, grows⟩ := h.gain finished head (slots ▸ Slots.all_setOtherwise branch h.otherwise) typed
      (by simpa [slots] using h.close)
    exact ⟨kind, found, gains, grows, fun last => absurd rfl last⟩
  case catchBranch =>
    obtain ⟨kind, found, head, slots⟩ := Kind.link?_tryBlock branch .catchBranch type
    replace slots : kind.slots = { host.kind.slots with catches := host.kind.slots.catches ++ [branch] } := slots
    have typed : kind.slots.Typed := by
      rw [slots]
      exact { h.slots with catches := by simpa [or_imp, forall_and] using ⟨h.slots.catches, t⟩ }
    obtain ⟨gains, grows⟩ := h.gain finished head (slots ▸ Slots.all_addCatch _ branch) typed
      (by simpa [slots] using h.close)
    refine ⟨kind, found, gains, grows, fun _ _ => { grows with otherwise := ?_, final := ?_ }⟩
    · simpa [slots] using h.otherwise
    · simpa [slots] using h.final
  case finallyBranch =>
    obtain ⟨kind, found, head, slots⟩ := Kind.link?_tryBlock branch .finallyBranch type
    replace slots : kind.slots = { host.kind.slots with final := some branch } := slots
    have typed : kind.slots.Typed := by
      rw [slots]
      exact { h.slots with final := by simpa using t }
    obtain ⟨gains, grows⟩ := h.gain finished head (slots ▸ Slots.all_setFinal branch h.final) typed
      (by simpa [slots] using h.close)
    exact ⟨kind, found, gains, grows, fun _ last => absurd rfl last⟩

theorem Growing.complete {block closer : Node} {sort : BlockSort} (h : block.Growing above)
    (type : block.type = .ofBlock sort) (closes : closer.type = .closer sort) :
    closer.Gains block (Node.mk block.position (block.kind.closeWith closer)) ∧
      (Node.mk block.position (block.kind.closeWith closer)).Finished above := by
  have head := Kind.closeWith_sameHead closer block.kind
  have slots := Kind.slots_closeWith closer type
  have gains : closer.Gains block (Node.mk block.position (block.kind.closeWith closer)) := by
    simpa using gains_of_sameHead block.position head (slots ▸ Slots.all_setClose closer h.close)
  have same : (Node.mk block.position (block.kind.closeWith closer)).type = .ofBlock sort :=
    gains.type.trans type
  refine ⟨gains, .intro ?_ ?_ ?_ ?_ ?_ ?_⟩
  · rw [same]
    exact NodeType.ofBlock_ne_script sort
  · intro other otherType
    obtain rfl : sort = other := by
      have h := congrArg NodeType.block? (same.symm.trans otherType)
      simpa using h
    exact ⟨closer, by simp [slots], closes⟩
  · rw [kind_mk, slots]
    exact { h.slots with }
  · intro verb jump
    cases sort <;> simp [same, NodeType.ofBlock] at jump
  · intro returns
    cases sort <;> simp [same, NodeType.ofBlock] at returns
  · exact gains.finished_children h.children (finished_of_closer closes _)

end Node

namespace Blocks

/-! ### The stack -/

inductive Stands : List Node → Prop where
  | script {n : Node} (type : n.type = .script) (grows : n.Open []) : Stands [n]
  | block {n : Node} {outer : List Node} (sort : BlockSort) (type : n.type = .ofBlock sort)
      (grows : n.Open (outer.map Node.type)) (below : Stands outer) : Stands (n :: outer)
  | branch {n host : Node} {outer : List Node} (sort : BlockSort) (isBranch : n.type.isBranch = true)
      (belongs : n.type.block? = some sort) (type : host.type = .ofBlock sort)
      (grows : n.Open (host.type :: outer.map Node.type)) (below : Stands (host :: outer)) :
      Stands (n :: host :: outer)

/-- The innermost block gains a node. -/
def Stores (n : Node) (before after : Blocks) : Prop :=
  ∃ top top' outer, before.stack = top :: outer ∧ after.stack = top' :: outer ∧ n.Gains top top'

/-- An innermost branch becomes part of the block it stands on. -/
def Leaves (before after : Blocks) : Prop :=
  if before.innermost.isBranch then ∃ branch outer, before.stack = branch :: outer ∧ Stores branch ⟨outer⟩ after
  else after = before

/-- What an edit is to do: each node it hands over is pushed or stored, and nothing is dropped. -/
def Performs (b : Blocks) : Edit → Prop
  | .add statement => Stores statement b (b.edit (.add statement))
  | .openBlock block => (b.edit (.openBlock block)).stack = block :: b.stack
  | .openBranch branch =>
    Leaves b b.leaveBranch ∧ (b.edit (.openBranch branch)).stack = branch :: b.leaveBranch.stack
  | .closeBlock closer =>
    Leaves b b.leaveBranch ∧ ∃ block block' outer, b.leaveBranch.stack = block :: outer ∧
      closer.Gains block block' ∧ Stores block' ⟨outer⟩ (b.edit (.closeBlock closer))

variable {b : Blocks} {top : Node} {outer : List Node}

theorem Stands.isOpen (h : Stands (top :: outer)) : top.Open (outer.map Node.type) := by
  cases h with
  | script type grows => exact grows
  | block sort type grows below => exact grows
  | branch sort isBranch belongs type grows below => exact grows

theorem Stands.isSome_body? (h : Stands (top :: outer)) : top.kind.body?.isSome = true := by
  have holds : top.kind.body?.isSome = (top.type == .script || top.type.block?.isSome) :=
    Kind.isSome_body? top.kind
  rw [holds]
  cases h with
  | script type grows => simp [type]
  | block sort type grows below => simp [type]
  | branch sort isBranch belongs type grows below => simp [belongs]

/-- A frame may be replaced by another of its type. -/
theorem Stands.replace {after : Node} (h : Stands (top :: outer)) (same : after.type = top.type)
    (grows : after.Open (outer.map Node.type)) : Stands (after :: outer) := by
  cases h with
  | script type _ => exact .script (same.trans type) grows
  | block sort type _ below => exact .block sort (same.trans type) grows below
  | branch sort isBranch belongs type _ below =>
    exact .branch sort (same ▸ isBranch) (same ▸ belongs) type grows below

theorem Stands.add {statement : Node} (h : Stands b.stack) (type : statement.type.isStatement = true)
    (finished : statement.Finished (b.stack.map Node.type)) :
    Stands (b.add statement).stack ∧ Stores statement b (b.add statement) := by
  obtain ⟨stack⟩ := b
  cases stack with
  | nil => cases h
  | cons top outer =>
    obtain ⟨kind, found, gains, grows⟩ := h.isOpen.add h.isSome_body? type finished
    obtain ⟨position, before⟩ := top
    have result : Blocks.add statement ⟨.mk position before :: outer⟩ = ⟨.mk position kind :: outer⟩ := by
      simp only [Node.kind_mk] at found
      simp [Blocks.add, found]
    rw [result]
    exact ⟨h.replace gains.type grows, _, _, outer, rfl, rfl, gains⟩

/-- What is left when the innermost branch, if there is one, has been linked into its block. -/
theorem Stands.leaveBranch {sort : BlockSort} (h : Stands b.stack) (inner : b.innermost.block? = some sort) :
    ∃ block outer, b.leaveBranch.stack = block :: outer ∧ block.type = .ofBlock sort ∧
      block.Growing (outer.map Node.type) ∧ Stands outer ∧ Leaves b b.leaveBranch ∧
      (b.innermost ≠ .elseBranch → b.innermost ≠ .finallyBranch → Stands (block :: outer)) := by
  obtain ⟨stack⟩ := b
  cases h with
  | script type grows => simp [innermost, type, NodeType.block?] at inner
  | @block n outer found type grows below =>
    obtain rfl : found = sort := by simpa [innermost, type] using inner
    have stays : Blocks.leaveBranch ⟨n :: outer⟩ = ⟨n :: outer⟩ := by
      simp [Blocks.leaveBranch, innermost, type]
    refine ⟨n, outer, by rw [stays], type, grows.toGrowing, below, ?_, fun _ _ => .block found type grows below⟩
    simp [Leaves, innermost, type, stays]
  | @branch n host outer found isBranch belongs type grows below =>
    obtain rfl : found = sort := by simpa [innermost, belongs] using inner
    obtain ⟨kind, linked, gains, growing, isOpen⟩ := below.isOpen.link type belongs isBranch grows.toGrowing
    obtain ⟨position, before⟩ := host
    have result : Blocks.leaveBranch ⟨n :: .mk position before :: outer⟩ = ⟨.mk position kind :: outer⟩ := by
      simp only [Node.kind_mk] at linked
      simp [Blocks.leaveBranch, innermost, isBranch, closeBranch, linked]
    have standing : Stands outer := by
      cases below with
      | script scriptType _ => exact absurd (type.symm.trans scriptType) (NodeType.ofBlock_ne_script found)
      | block _ _ _ below => exact below
      | branch _ hostIsBranch _ _ _ _ => simp [type] at hostIsBranch
    refine ⟨.mk position kind, outer, by rw [result], gains.type.trans type, growing, standing, ?_, ?_⟩
    · simp only [Leaves, innermost, isBranch, if_true, result]
      exact ⟨n, _, rfl, _, _, outer, rfl, rfl, gains⟩
    · intro notElse notFinally
      exact below.replace gains.type (isOpen notElse notFinally)

end Blocks

end VimScript
